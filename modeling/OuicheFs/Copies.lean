import OuicheFs.Compaction
import OuicheFs.Search

/-!
# The copies of a defragmentation

The first pass copies with `memcpy`, also inside the block that it drains, where
source and destination lie in one buffer. Every block that holds bytes is drained
once, into what is left of the block in which its first byte ends up; the bytes
left in it move up by as much as was copied out. Ranges of the same block stay
apart if at least half of the block was copied out.
-/
namespace Copies

open CInt ByteBuffer IndexEntry FileContext Layout OuicheDefrag Compaction Loop Search Overlap

/-- A call of `memcpy` on the buffers of two blocks. -/
structure Memcpy where
  dst : Nat
  dstOff : Nat
  src : Nat
  srcOff : Nat
  len : Nat
  deriving DecidableEq

namespace Memcpy

def run (m : Memcpy) (s : Ctx) : Ctx := s.memcpy m.dst m.dstOff m.src m.srcOff m.len

/-- Both ranges lie in their block. -/
def Inside (m : Memcpy) : Prop := m.dstOff + m.len ≤ blockSize ∧ m.srcOff + m.len ≤ blockSize

/-- The ranges have no byte in common. -/
def Apart (m : Memcpy) : Prop :=
  m.dst = m.src → m.dstOff + m.len ≤ m.srcOff ∨ m.srcOff + m.len ≤ m.dstOff

/-- The contract of `memcpy`: both ranges lie in their block and have no byte in common. -/
def Ok (m : Memcpy) : Prop :=
  m.dstOff + m.len ≤ blockSize ∧ m.srcOff + m.len ≤ blockSize ∧
    (m.dst = m.src → m.dstOff + m.len ≤ m.srcOff ∨ m.srcOff + m.len ≤ m.dstOff)

instance (m : Memcpy) : Decidable m.Ok :=
  inferInstanceAs (Decidable (_ ∧ _ ∧ (_ → _ ∨ _)))

theorem ok_iff (m : Memcpy) : m.Ok ↔ m.Inside ∧ m.Apart := and_assoc.symm

end Memcpy

/-- The copies of one `moveShiftBlockContentTo`. -/
def moveCopies (s : Ctx) (from_ to_ lp : Nat) : List Memcpy :=
  let fromLen := getBlockSize (s.blocks from_)
  let toCopy := min fromLen (blockSize - lp)
  if toCopy = 0 then [] else
  let bhFrom := getBlockNumber (s.blocks from_)
  let bhTo := getBlockNumber (s.blocks to_)
  if s.io.bread 0 = false ∨ s.io.bread 1 = false then [] else
  [⟨bhTo, lp, bhFrom, 0, toCopy⟩, ⟨bhFrom, 0, bhFrom, toCopy, fromLen - toCopy⟩]

/-- What `moveShiftBlockContentTo` does to the blocks is to run these copies. -/
theorem moveShiftBlockContentTo_copies (s : Ctx) (from_ to_ lp : Nat) :
    (moveCopies s from_ to_ lp = [] ∧
      (moveShiftBlockContentTo s from_ to_ lp).1.disk = s.disk ∧
      (moveShiftBlockContentTo s from_ to_ lp).2 ≤ 0) ∨
    ∃ m₁ m₂ q, moveCopies s from_ to_ lp = [m₁, m₂] ∧ q.disk = s.disk ∧ q.node = s.node ∧
      let u := m₁.run q
      let v := u.setBlocks from_ (subBlockSize (u.blocks from_) m₁.len)
      let w := v.setBlocks to_ (addBlockSize (v.blocks to_) m₁.len)
      moveShiftBlockContentTo s from_ to_ lp =
        ((m₂.run w).memset m₂.dst m₂.len m₁.len, (m₁.len : Int)) := by
  by_cases hzero : min (getBlockSize (s.blocks from_)) (blockSize - lp) = 0
  · left
    refine ⟨if_pos hzero, congrArg (fun r : Ctx × Int => r.1.disk) (if_pos hzero), ?_⟩
    exact Int.le_of_eq (congrArg (fun r : Ctx × Int => r.2) (if_pos hzero))
  by_cases hread : s.io.bread 0 = false ∨ s.io.bread 1 = false
  · left
    have hrun : moveShiftBlockContentTo s from_ to_ lp =
        (((s.touch from_).touch to_).popBread.popBread, -errIo) :=
      (if_neg hzero).trans (if_pos hread)
    refine ⟨(if_neg hzero).trans (if_pos hread), ?_, ?_⟩
    · rw [hrun]
      rfl
    · rw [hrun]
      exact show -errIo ≤ 0 by decide
  · right
    refine ⟨_, _, ((s.touch from_).touch to_).popBread.popBread,
      (if_neg hzero).trans (if_neg hread), rfl, rfl, ?_⟩
    exact (if_neg hzero).trans (if_neg hread)

/-- The copies of one iteration of the first pass. -/
def stepCopies (p : Pass) : List Memcpy :=
  let s := p.ctx
  if p.dataMoved < s.node.iSize ∧ p.bli < u64 ((s.node.iBlocks : Int) - 2) then
    if blockEmpty (s.blocks (p.bli + 1)) then []
    else moveCopies s (p.bli + 1) p.bli p.logicalPos
  else []

/-- The copies of a defragmentation, in order. -/
def defragCopies (fuel : Nat) (s : Ctx) : List Memcpy :=
  if s.io.bread 0 = false then [] else observe stepCopies passStep fuel (passStart s)

/-! ## The ranges lie inside the blocks -/

theorem moveCopies_inside {s : Ctx} {from_ to_ lp : Nat} (le : lp ≤ blockSize) :
    ∀ m ∈ moveCopies s from_ to_ lp, m.Inside := by
  have hfrom : getBlockSize (s.blocks from_) ≤ blockSize := getBlockSize_le _
  intro m hm
  unfold moveCopies at hm
  simp only at hm
  split at hm
  · cases hm
  split at hm
  · cases hm
  rcases List.mem_pair.mp hm with rfl | rfl
  · constructor
    · change lp + min _ _ ≤ _
      omega
    · change 0 + min _ _ ≤ _
      omega
  · constructor
    · change 0 + (_ - min _ _) ≤ _
      omega
    · change min _ _ + (_ - min _ _) ≤ _
      omega

theorem moveCopies_dstOff {s : Ctx} {from_ to_ lp : Nat} {m : Memcpy}
    (first : (moveCopies s from_ to_ lp).head? = some m) : m.dstOff = lp := by
  unfold moveCopies at first
  simp only at first
  split at first
  · cases first
  split at first
  · cases first
  · rw [← Option.some.inj first]

/-- No more is moved than the target has room for: the first copy stays in its block. -/
theorem moveShiftBlockContentTo_le (s : Ctx) {from_ to_ lp : Nat} (le : lp ≤ blockSize) :
    (moveShiftBlockContentTo s from_ to_ lp).2.toNat ≤ blockSize - lp := by
  rcases moveShiftBlockContentTo_copies s from_ to_ lp with
    ⟨_, _, hret⟩ | ⟨m₁, m₂, q, hcopies, _, _, hrun⟩
  · omega
  · have hinside : m₁.Inside := moveCopies_inside le m₁ (by rw [hcopies]; exact List.mem_cons_self)
    have hoff : m₁.dstOff = lp := moveCopies_dstOff (by rw [hcopies]; rfl)
    rw [hrun, Int.toNat_natCast]
    have := hinside.1
    omega

theorem passStep_logicalPos {p p' : Pass} (le : p.logicalPos ≤ blockSize)
    (step : passStep p = .next p') : p'.logicalPos ≤ blockSize := by
  have hmoved : (moveShiftBlockContentTo (p.ctx.touch (p.bli + 1)) (p.bli + 1) p.bli
      p.logicalPos).2.toNat ≤ blockSize - p.logicalPos := moveShiftBlockContentTo_le _ le
  unfold passStep at step
  simp only at step
  split at step
  · split at step
    · cases step
      exact le
    split at step
    · cases step
    split at step
    · cases step
      exact getBlockSize_le _
    · cases step
      change p.logicalPos + _ ≤ _
      omega
  · cases step

/-- No copy leaves its blocks, whatever the index holds. -/
theorem defragCopies_inside (fuel : Nat) (s : Ctx) : ∀ m ∈ defragCopies fuel s, m.Inside := by
  intro m hm
  unfold defragCopies at hm
  split at hm
  · cases hm
  suffices hshows : Shows stepCopies passStep Memcpy.Inside (passStart s) from hshows fuel m hm
  refine shows_of_inv (fun p => p.logicalPos ≤ blockSize) ?_ ?_ ?_
  · intro p hp
    unfold stepCopies
    simp only
    split
    · split
      · simp
      · exact moveCopies_inside hp
    · simp
  · exact fun p p' => passStep_logicalPos
  · exact getBlockSize_le _

/-! ## When the ranges stay apart -/

section Pass

variable {s : Ctx} {es : List Word} {p : Pass} {F R : List Word} {e z : Word}

/-- The two copies that drain `z` into the block of `e`. -/
theorem moveCopies_eq {t : Ctx} (shape : Shape t (F ++ e :: z :: R))
    (room : getBlockSize e < 4096) (ne : getBlockSize z ≠ 0)
    (reads : ¬ (t.io.bread 0 = false ∨ t.io.bread 1 = false)) :
    moveCopies t (F.length + 1) F.length (getBlockSize e) =
      [⟨getBlockNumber e, getBlockSize e, getBlockNumber z, 0,
          min (getBlockSize z) (4096 - getBlockSize e)⟩,
        ⟨getBlockNumber z, 0, getBlockNumber z, min (getBlockSize z) (4096 - getBlockSize e),
          getBlockSize z - min (getBlockSize z) (4096 - getBlockSize e)⟩] := by
  have shape2 : Shape t ((F ++ [e]) ++ z :: R) := by simpa using shape
  have hto : t.blocks F.length = e := shape.blocks_at
  have hfrom : t.blocks (F.length + 1) = z := by simpa using shape2.blocks_at
  have hzero : ¬ min (getBlockSize z) (blockSize - getBlockSize e) = 0 := by
    rw [blockSize]
    omega
  simp only [moveCopies, hto, hfrom, if_neg hzero, if_neg reads]
  rfl

/-- With less than half of the block copied out, the rest is moved onto itself. -/
theorem moveCopies_apart_iff {t : Ctx} (shape : Shape t (F ++ e :: z :: R))
    (room : getBlockSize e < 4096) (ne : getBlockSize z ≠ 0) :
    (∀ m ∈ moveCopies t (F.length + 1) F.length (getBlockSize e), m.Apart) ↔
      (t.io.bread 0 = false ∨ t.io.bread 1 = false) ∨
        getBlockSize z ≤ 2 * (4096 - getBlockSize e) := by
  by_cases hreads : t.io.bread 0 = false ∨ t.io.bread 1 = false
  · have hnone : moveCopies t (F.length + 1) F.length (getBlockSize e) = [] := by
      simp only [moveCopies, if_pos hreads, ite_self]
    simp [hnone, hreads]
  have hze : getBlockNumber z ≠ getBlockNumber e := shape.others_ne.2 z (by simp)
  have hz := getBlockSize_le z
  rw [moveCopies_eq shape room ne hreads, or_iff_right hreads]
  simp only [List.forall_mem_cons, List.not_mem_nil, false_implies, implies_true, and_true,
    Memcpy.Apart, forall_const]
  constructor
  · omega
  · intro hle
    exact ⟨fun h => absurd h.symm hze, by omega⟩

/-- One iteration keeps the contract exactly if the next block fits behind the bytes
in front of it. -/
theorem stepCopies_apart_iff (h : PassInv s es p F e (z :: R)) (size : s.node.iSize = total es)
    (rest : 0 < total (z :: R)) :
    (∀ m ∈ stepCopies p, m.Apart) ↔ (p.ctx.io.bread 0 = false ∨ p.ctx.io.bread 1 = false) ∨
      Fits (total F + getBlockSize e) (getBlockSize z) := by
  have shape := h.kept.shape
  have hat : p.ctx.blocks (F.length + 1) = z := by
    have shape2 : Shape p.ctx ((F ++ [e]) ++ z :: R) := by simpa using shape
    simpa using shape2.blocks_at
  have hF := total_of_full h.full
  have hsize := getBlockSize_le e
  unfold stepCopies
  simp only [if_pos ((h.goes_iff size).mpr rest)]
  rw [h.bli, hat, h.cursor]
  by_cases hempty : getBlockSize z = 0
  · rw [if_pos ((blockEmpty_iff z).mpr hempty), hempty]
    simp [Fits]
  rw [if_neg (by rw [blockEmpty_iff]; exact hempty)]
  by_cases hfull : getBlockSize e = 4096
  · have hnone : moveCopies p.ctx (F.length + 1) F.length (getBlockSize e) = [] := by
      simp [moveCopies, hfull, blockSize]
    have hfits : Fits (total F + getBlockSize e) (getBlockSize z) :=
      fits_of_aligned (by rw [blockSize, hfull]; omega) (getBlockSize_le z)
    simp [hnone, hfits]
  · have hpos : (total F + getBlockSize e) % blockSize = getBlockSize e := by
      rw [blockSize]
      omega
    rw [moveCopies_apart_iff shape (by omega) hempty, Fits, hpos]
    rfl

theorem stepCopies_over (h : PassInv s es p F e R) (size : s.node.iSize = total es)
    (rest : total R = 0) : stepCopies p = [] := by
  refine if_neg fun hcond => ?_
  have := (h.goes_iff size).mp hcond
  omega

theorem allFit_consumed {F' R' : List Word} {e' : Word} (c : Consumed F e (z :: R) F' e' R') :
    AllFit (total F + getBlockSize e) ((z :: R).map getBlockSize) ↔
      Fits (total F + getBlockSize e) (getBlockSize z) ∧
        AllFit (total F' + getBlockSize e') (R'.map getBlockSize) := by
  obtain ⟨z₀, R₀, hR, hpos, hheld⟩ := c
  cases hR
  rw [List.map_cons, AllFit, ← allFit_held, ← allFit_held, hpos, hheld]

theorem allFit_over (rest : total R = 0) (pos : Nat) :
    AllFit pos (R.map getBlockSize) := by
  have hheld : held R = [] := by
    simpa [held] using sizes_zero_of_total rest
  rw [← allFit_held, hheld]
  trivial

/-- The copies of the first pass, from any of its states on. -/
theorem firstPass_copies (size : s.node.iSize = total es) (w : Nat) :
    ∀ (p : Pass) (F : List Word) (e : Word) (R : List Word), weight R = w →
      PassInv s es p F e R →
      (AllFit (total F + getBlockSize e) (R.map getBlockSize) →
        Shows stepCopies passStep Memcpy.Apart p) ∧
      (s.io.NoReadFails → Shows stepCopies passStep Memcpy.Apart p →
        AllFit (total F + getBlockSize e) (R.map getBlockSize)) := by
  induction w using Nat.strong_induction_on with
  | _ w ih =>
    intro p F e R hw h
    rcases Nat.eq_zero_or_pos (total R) with hrest | hrest
    · constructor
      · intro _
        rw [shows_iff, stepCopies_over h size hrest]
        refine ⟨by simp, fun p' hp' => ?_⟩
        have hover : passStep p = .done (p, 0) := if_neg fun hcond => by
          have := (h.goes_iff size).mp hcond
          omega
        rw [hover] at hp'
        cases hp'
      · exact fun _ _ => allFit_over hrest _
    obtain ⟨z, R, rfl⟩ : ∃ z R', R = z :: R' := by
      cases R with
      | nil => exact absurd hrest (lt_irrefl 0)
      | cons z R => exact ⟨z, R, rfl⟩
    have hstep := stepCopies_apart_iff h size hrest
    constructor
    · intro hdrain
      rw [shows_iff, hstep]
      refine ⟨Or.inr hdrain.1, fun p' hp' => ?_⟩
      rcases passStep_cases h size with
        ⟨hdone, _⟩ | ⟨t, hdone, _⟩ | ⟨q, F', e', R', hnext, hq, hlt, hc, _⟩
      · rw [hdone] at hp'
        cases hp'
      · rw [hdone] at hp'
        cases hp'
      · rw [hnext] at hp'
        cases hp'
        exact (ih _ (hw ▸ hlt) p' F' e' R' rfl hq).1 ((allFit_consumed hc).mp hdrain).2
    · intro hreads hshows
      rw [shows_iff, hstep] at hshows
      obtain ⟨hhere, hnext⟩ := hshows
      have hfits : Fits (total F + getBlockSize e) (getBlockSize z) := by
        rcases hhere with (h0 | h1) | hfits
        · exact absurd (h.reads.const hreads 0) (by rw [h0]; decide)
        · exact absurd (h.reads.const hreads 1) (by rw [h1]; decide)
        · exact hfits
      rcases passStep_cases h size with
        ⟨_, hz⟩ | ⟨t, _, _, _, hfail⟩ | ⟨q, F', e', R', hq, hinv, hlt, hc, _⟩
      · omega
      · exact absurd hreads hfail
      · rw [allFit_consumed hc]
        exact ⟨hfits, (ih _ (hw ▸ hlt) q F' e' R' rfl hinv).2 hreads (hnext q hq)⟩

end Pass

/-- The copies of a whole defragmentation of a file with the entries `es`. -/
theorem defragCopies_apart {s : Ctx} {es : List Word} (shape : Shape s es)
    (size : s.node.iSize = total es) :
    (AllFit 0 (es.map getBlockSize) → ∀ fuel, ∀ m ∈ defragCopies fuel s, m.Apart) ∧
      (s.io.NoReadFails → (∀ fuel, ∀ m ∈ defragCopies fuel s, m.Apart) →
        AllFit 0 (es.map getBlockSize)) := by
  by_cases hread : s.io.bread 0 = false
  · have hnone : ∀ fuel, defragCopies fuel s = [] := fun fuel => if_pos hread
    constructor
    · intro _ fuel m hm
      rw [hnone fuel] at hm
      cases hm
    · intro hok
      rw [hok 0] at hread
      cases hread
  have hrun : ∀ fuel, defragCopies fuel s = observe stepCopies passStep fuel (passStart s) :=
    fun fuel => if_neg hread
  simp only [hrun]
  cases es with
  | nil =>
    obtain ⟨hdone, _⟩ := passStart_empty shape size
    refine ⟨fun _ => ?_, fun _ _ => trivial⟩
    have hnone : stepCopies (passStart s) = [] := by
      refine if_neg ?_
      rintro ⟨hlt, _⟩
      rw [show (passStart s).ctx.node.iSize = 0 from size] at hlt
      exact Nat.not_lt_zero _ hlt
    refine shows_iff.mpr ⟨by simp [hnone], fun p' hp' => ?_⟩
    rw [hdone] at hp'
    cases hp'
  | cons e R =>
    obtain ⟨hsound, hcomplete⟩ :=
      firstPass_copies size _ (passStart s) [] e R rfl (passStart_inv shape)
    have hfirst : AllFit 0 ((e :: R).map getBlockSize) ↔
        AllFit (total [] + getBlockSize e) (R.map getBlockSize) :=
      and_iff_right (fits_of_aligned rfl (getBlockSize_le e))
    rw [hfirst]
    exact ⟨hsound, hcomplete⟩

/-- Every `memcpy` of every defragmentation of the file, whichever reads fail, keeps to
its contract exactly if each block holds at most twice the bytes that the ones in front
of it leave in their last block. -/
theorem defrag_copies_apart_iff (s : Ctx) (wf : WellFormed s)
    (apart : s.node.indexBlock ∉ numbers s.entries) :
    (∀ (io : Io) (fuel : Nat), ∀ m ∈ defragCopies fuel { s with io := io }, m.Ok) ↔
      ∀ k, k < s.node.iBlocks - 1 →
        getBlockSize (s.blocks k) ≤ 2 * (4096 - sizesBelow s.blocks k % 4096) := by
  have hshape : ∀ io : Io, Shape { s with io := io } s.entries := fun io =>
    (wf.shape apart).congr (fun _ _ => rfl) rfl rfl
  have hcond : AllFit 0 (s.entries.map getBlockSize) ↔ ∀ k, k < s.node.iBlocks - 1 →
      getBlockSize (s.blocks k) ≤ 2 * (4096 - sizesBelow s.blocks k % 4096) := by
    rw [allFit_iff, entries_length]
    refine forall₂_congr fun k hk => ?_
    rw [Nat.zero_add, total_take_entries hk, entries_get hk]
    rfl
  rw [← hcond]
  constructor
  · intro h
    refine (defragCopies_apart (hshape calmIo) wf.size).2 (fun _ => rfl) fun fuel m hm => ?_
    exact (m.ok_iff.mp (h calmIo fuel m hm)).2
  · intro h io fuel m hm
    -- the ranges lie inside the blocks in any case
    exact m.ok_iff.mpr ⟨defragCopies_inside fuel _ m hm,
      (defragCopies_apart (hshape io) wf.size).1 h fuel m hm⟩

/-- Blocks of 0, 4000, 0, 1 and 96 bytes. -/
theorem defrag_copies_apart_scattered :
    WellFormed scatteredCtx ∧
      ∀ (io : Io) (fuel : Nat), ∀ m ∈ defragCopies fuel { scatteredCtx with io := io }, m.Ok := by
  have wf : WellFormed scatteredCtx :=
    scatteredCtx_shape.wellFormed (nonzero_of_numbers (by decide)) (by decide +kernel)
  have apart : scatteredCtx.node.indexBlock ∉ numbers scatteredCtx.entries := by
    rw [scatteredCtx_shape.entries_eq]
    decide
  exact ⟨wf, (defrag_copies_apart_iff scatteredCtx wf apart).mpr (by decide +kernel)⟩

/-- A file of 4200 bytes, 4000 in its first block and 200 in its second. -/
def gappedCtx : Ctx where
  sbi := ⟨100, 102, 2, 1, 1, 100, 91, fun _ => false, fun b => decide (9 ≤ b ∧ b < 100)⟩
  disk := fun b => if b = 6 then
      ofWords32 (fun i => [setBlockSize (freshEntry 7) 4000,
        setBlockSize (freshEntry 8) 200][i]?.getD 0)
    else fun k => BitVec.ofNat 8 (b + k)
  node := ⟨33188, 0, 0, 4200, ⟨0, 0⟩, ⟨0, 0⟩, ⟨0, 0⟩, 3, 1, 6⟩
  io := calmIo
  touched := []

theorem gappedCtx_shape : Shape gappedCtx [setBlockSize (freshEntry 7) 4000,
    setBlockSize (freshEntry 8) 200] :=
  shape_of_words (by decide) rfl rfl (by decide) (by decide)

/-- The first 96 bytes of block 8 go to block 7; the 104 others are then copied from
offset 96 to offset 0 of block 8, over 8 bytes that are still to be read. -/
theorem defrag_copies_overlap :
    WellFormed gappedCtx ∧ gappedCtx.node.indexBlock ∉ numbers gappedCtx.entries ∧
      ⟨8, 0, 8, 96, 104⟩ ∈ defragCopies 1 gappedCtx ∧ ¬ Memcpy.Ok ⟨8, 0, 8, 96, 104⟩ := by
  refine ⟨gappedCtx_shape.wellFormed (nonzero_of_numbers (by decide)) (by decide +kernel), ?_,
    by decide +kernel, by decide⟩
  rw [gappedCtx_shape.entries_eq]
  decide

end Copies
