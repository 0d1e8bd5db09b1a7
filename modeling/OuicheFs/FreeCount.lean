import OuicheFs.Allocator
import OuicheFs.Lib.Loop

/-!
# The free counter over sequences of calls

`put_block` gets whatever number its caller has. Numbers behind the volume are
refused, except for the first of them: `put_free_bit` compares with `>`, so the
number of blocks itself passes.
-/
namespace FreeCount

open CInt Bits Allocator Loop

inductive Call where
  | get
  | put (bno : Nat)

/-- The superblock information after a call. -/
def after (sbi : SbInfo) : Call → SbInfo
  | .get => (getFreeBlock sbi).2
  | .put bno => putBlock sbi bno

/-- `put_block` gets a number of 32 bits that is neither 0 nor a free block. -/
def Allowed (sbi : SbInfo) : Call → Prop
  | .get => True
  | .put bno => bno ≠ 0 ∧ bno < 4294967296 ∧ (bno < sbi.nrBlocks → sbi.bfreeBitmap bno = false)

/-- The books are right after the call, and so is its answer. -/
structure Kept (sbi : SbInfo) (c : Call) : Prop where
  count : (after sbi c).nrFreeBlocks = popcount (after sbi c).bfreeBitmap sbi.nrBlocks
  above : ∀ b, sbi.nrBlocks ≤ b → (after sbi c).bfreeBitmap b = sbi.bfreeBitmap b
  none_iff : c = .get → ((getFreeBlock sbi).1 = 0 ↔ popcount sbi.bfreeBitmap sbi.nrBlocks = 0)
  was_free : c = .get → (getFreeBlock sbi).1 ≠ 0 → 1 ≤ (getFreeBlock sbi).1 ∧
    (getFreeBlock sbi).1 < sbi.nrBlocks ∧ sbi.bfreeBitmap (getFreeBlock sbi).1 = true

/-- Allocator in order on a volume of `n` blocks. -/
structure Books (n : Nat) (sbi : SbInfo) : Prop where
  ok : BlocksOk sbi
  size : sbi.nrBlocks = n

section

variable {n : Nat} {sbi : SbInfo}

/-! ## One call -/

theorem get_kept (h : BlocksOk sbi) : Kept sbi .get ∧ BlocksOk (after sbi .get) ∧
    (after sbi .get).nrBlocks = sbi.nrBlocks := by
  rcases Nat.eq_zero_or_pos sbi.nrFreeBlocks with hnone | hsome
  · have hfail : (getFreeBlock sbi).1 = 0 := by
      rcases (getFreeBlock_spec sbi).2.2 with ⟨hz, _⟩ | ⟨_, hlt, hfree, _⟩
      · exact hz
      · have hpos := (popcount_pos_iff _ _).mpr ⟨_, hlt, hfree⟩
        rw [← h.counter] at hpos
        omega
    have hsame : after sbi .get = sbi := getFreeBlock_fails h.zero_used hfail
    refine ⟨⟨?_, ?_, ?_, ?_⟩, ?_, ?_⟩
    · rw [hsame]
      exact h.counter
    · intro b _
      rw [hsame]
    · intro _
      rw [← h.counter]
      exact ⟨fun _ => hnone, fun _ => hfail⟩
    · intro _ hne
      exact absurd hfail hne
    · rw [hsame]
      exact h
    · rw [hsame]
  · have htaken : Taken sbi (after sbi .get) (getFreeBlock sbi).1 := getFreeBlock_taken h hsome
    have hok := htaken.blocksOk h
    have hpos := htaken.pos
    have hlt := htaken.lt
    refine ⟨⟨?_, ?_, ?_, ?_⟩, hok, htaken.layout.nrBlocks⟩
    · rw [← htaken.layout.nrBlocks]
      exact hok.counter
    · intro b hb
      rw [htaken.bitmap]
      exact clearBit_of_ne _ (by omega)
    · intro _
      rw [← h.counter]
      constructor
      · omega
      · omega
    · intro _ _
      exact ⟨hpos, hlt, htaken.was_free⟩

theorem put_kept {bno : Nat} (h : BlocksOk sbi) (allowed : Allowed sbi (.put bno))
    (ne : bno ≠ sbi.nrBlocks) : Kept sbi (.put bno) ∧ BlocksOk (after sbi (.put bno)) ∧
      (after sbi (.put bno)).nrBlocks = sbi.nrBlocks := by
  obtain ⟨hz, _, hused⟩ := allowed
  rcases Nat.lt_or_ge bno sbi.nrBlocks with hlt | hge
  · have hgiven : Given sbi (after sbi (.put bno)) bno := putBlock_given (Nat.le_of_lt hlt)
    obtain ⟨hok, _⟩ := hgiven.blocksOk h ⟨Nat.pos_of_ne_zero hz, hlt, hused hlt⟩
    refine ⟨⟨?_, ?_, by rintro ⟨⟩, by rintro ⟨⟩⟩, hok, hgiven.layout.nrBlocks⟩
    · rw [← hgiven.layout.nrBlocks]
      exact hok.counter
    · intro b hb
      rw [hgiven.bitmap]
      exact setBit_of_ne _ (by omega)
  · have hsame : after sbi (.put bno) = sbi := putBlock_refused (by omega)
    refine ⟨⟨?_, ?_, by rintro ⟨⟩, by rintro ⟨⟩⟩, ?_, ?_⟩
    · rw [hsame]
      exact h.counter
    · intro b _
      rw [hsame]
    · rw [hsame]
      exact h
    · rw [hsame]

/-- The number of blocks is accepted: the counter goes up, but no block is freed. -/
theorem put_nrBlocks_not_kept (h : BlocksOk sbi) : ¬ Kept sbi (.put sbi.nrBlocks) := by
  intro hkept
  have hgiven : Given sbi (after sbi (.put sbi.nrBlocks)) sbi.nrBlocks :=
    putBlock_given (Nat.le_refl _)
  have hsame : popcount (after sbi (.put sbi.nrBlocks)).bfreeBitmap sbi.nrBlocks =
      popcount sbi.bfreeBitmap sbi.nrBlocks := by
    apply popcount_congr
    intro i hi
    rw [hgiven.bitmap]
    exact setBit_of_ne _ (by omega)
  have hcount := hkept.count
  have hle := popcount_le sbi.bfreeBitmap sbi.nrBlocks
  have hrange := h.range
  rw [hsame, hgiven.count, h.counter] at hcount
  unfold u32 at hcount
  omega

/-- In a state in order a call keeps the books if and only if it does not give back
the number of blocks. -/
theorem kept_iff {c : Call} (h : Books n sbi) (allowed : Allowed sbi c) :
    Kept sbi c ↔ c ≠ .put n := by
  obtain ⟨hok, rfl⟩ := h
  cases c with
  | get =>
    constructor
    · rintro _ ⟨⟩
    · exact fun _ => (get_kept hok).1
  | put bno =>
    constructor
    · rintro hkept ⟨⟩
      exact put_nrBlocks_not_kept hok hkept
    · intro hne
      exact (put_kept hok allowed fun heq => hne (by rw [heq])).1

theorem books_after {c : Call} (h : Books n sbi) (allowed : Allowed sbi c) (ne : c ≠ .put n) :
    Books n (after sbi c) := by
  obtain ⟨hok, rfl⟩ := h
  cases c with
  | get =>
    obtain ⟨_, hnext, hsize⟩ := get_kept hok
    exact ⟨hnext, hsize⟩
  | put bno =>
    obtain ⟨_, hnext, hsize⟩ := put_kept hok allowed fun heq => ne (by rw [heq])
    exact ⟨hnext, hsize⟩

end

/-! ## Sequences of calls -/

/-- Every call of a sequence keeps the books if and only if none of them gives back
the number of blocks. -/
theorem bookkeeping_iff {sbi : SbInfo} (ok : BlocksOk sbi) (calls : List Call)
    (allowed : Along after Allowed sbi calls) :
    Along after Kept sbi calls ↔ ∀ c ∈ calls, c ≠ .put sbi.nrBlocks := by
  have hmeets : ∀ s c, Books sbi.nrBlocks s → Allowed s c → (Kept s c ↔ c ≠ .put sbi.nrBlocks) :=
    fun _ _ h => kept_iff h
  have hkeeps : ∀ s c, Books sbi.nrBlocks s → Allowed s c → c ≠ .put sbi.nrBlocks →
      Books sbi.nrBlocks (after s c) :=
    fun _ _ h => books_after h
  exact along_iff (Books sbi.nrBlocks) hmeets hkeeps calls sbi ⟨ok, rfl⟩ allowed

/-- A volume of 100 blocks with the blocks from 30 on free. -/
def hundredBlocks : SbInfo :=
  ⟨100, 149, 3, 1, 1, 147, 70, fun i => decide (2 ≤ i), fun b => decide (30 ≤ b ∧ b < 100)⟩

theorem hundredBlocks_ok : BlocksOk hundredBlocks := ⟨rfl, by decide +kernel, by decide⟩

/-- A block is taken, another one given back and taken, and a number far behind the
volume is refused. -/
theorem bookkeeping_four_calls :
    Along after Kept hundredBlocks [.get, .put 12, .get, .put 4000000000] := by
  refine (bookkeeping_iff hundredBlocks_ok _ ?_).mpr ?_
  · exact ⟨trivial, ⟨by decide, by decide, fun _ => by decide +kernel⟩, trivial,
      ⟨by decide, by decide, fun h => absurd h (by decide +kernel)⟩, trivial⟩
  · simp [hundredBlocks]

/-- The number 100 is not a block, but it is counted as one and a bit is set for it. -/
theorem bookkeeping_counts_nrBlocks :
    BlocksOk hundredBlocks ∧ Along after Allowed hundredBlocks [.put 100] ∧
      hundredBlocks.bfreeBitmap 100 = false ∧
      (after hundredBlocks (.put 100)).bfreeBitmap 100 = true ∧
      (after hundredBlocks (.put 100)).nrFreeBlocks = 71 ∧
      popcount (after hundredBlocks (.put 100)).bfreeBitmap 100 = 70 ∧
      ¬ Along after Kept hundredBlocks [.put 100] := by
  refine ⟨hundredBlocks_ok, ⟨⟨by decide, by decide, fun h => absurd h (by decide)⟩, trivial⟩,
    by decide, by decide, by decide, by decide +kernel, ?_⟩
  rintro ⟨hkept, -⟩
  exact put_nrBlocks_not_kept hundredBlocks_ok hkept

end FreeCount
