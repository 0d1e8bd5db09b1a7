import OuicheFs.Layout
import OuicheFs.File

/-!
# The position search on lists of entries

For positions below 2^31 the search finds the first entry at which the prefix
sum of the sizes reaches the position, and fails exactly beyond the last byte.
A position at the end of a block is placed in that block, not in the next one.
Nothing is asked of the index; on a file in order its entries are a list.
-/
namespace Search

open CInt IndexEntry FileContext Layout OuicheFile

/-- `k` entries come first, then `p` bytes of the next one. -/
structure Found (L : List Word) (pos : Nat) (A : List Word) (e : Word) (B : List Word)
    (p : Nat) : Prop where
  split : L = A ++ e :: B
  offset : total A + p = pos
  pos : 1 ≤ p
  le : p ≤ getBlockSize e

theorem i32_sub_size {n : Nat} (h : n < 2147483648) (e : Word) :
    i32 ((n : Int) - getBlockSize e) = (n : Int) - getBlockSize e := by
  have := getBlockSize_le e
  exact i32_eq_self (by omega) (by omega)

theorem findBlockPosLoop_found {blocks : Nat → Word} (L : List Word) :
    ∀ (k n : Nat), (∀ i, i < L.length → blocks (k + i) = L[i]?.getD 0) →
      0 < n → n ≤ total L → n < 2147483648 →
      ∃ A e B p, Found L n A e B p ∧
        findBlockPosLoop blocks L.length k n = some (k + A.length, (p : Int)) := by
  induction L with
  | nil =>
    intro k n _ hpos hle
    rw [total_nil] at hle
    omega
  | cons e L ih =>
    intro k n hblocks hpos hle hlt
    have hk : blocks k = e := by simpa using hblocks 0 (by simp)
    have hne : ¬ ((n : Int) = 0) := by omega
    rw [List.length_cons, findBlockPosLoop, if_neg hne]
    simp only [hk, i32_sub_size hlt]
    by_cases hhere : (n : Int) - getBlockSize e ≤ 0
    · rw [if_pos hhere]
      exact ⟨[], e, L, n, ⟨rfl, by simp, hpos, by omega⟩, rfl⟩
    · rw [if_neg hhere]
      rw [total_cons] at hle
      obtain ⟨A, d, B, p, hfound, hrun⟩ := ih (k + 1) (n - getBlockSize e)
        (by
          intro i hi
          have := hblocks (i + 1) (by simpa using hi)
          simpa [Nat.add_assoc, Nat.add_comm 1 i] using this)
        (by omega) (by omega) (by omega)
      refine ⟨e :: A, d, B, p, ⟨by rw [hfound.split]; rfl, ?_, hfound.pos, hfound.le⟩, ?_⟩
      · have := hfound.offset
        rw [total_cons]
        omega
      · rw [show (n : Int) - getBlockSize e = ((n - getBlockSize e : Nat) : Int) by omega, hrun]
        simp only [List.length_cons]
        congr 2
        omega

theorem findBlockPosLoop_none {blocks : Nat → Word} (L : List Word) :
    ∀ (k n : Nat), (∀ i, i < L.length → blocks (k + i) = L[i]?.getD 0) →
      total L < n → n < 2147483648 → findBlockPosLoop blocks L.length k n = none := by
  induction L with
  | nil =>
    intro k n _ hlt _
    have hne : ¬ ((n : Int) = 0) := by omega
    simp only [List.length_nil, findBlockPosLoop, if_neg hne]
  | cons e L ih =>
    intro k n hblocks hgt hlt
    have hk : blocks k = e := by simpa using hblocks 0 (by simp)
    rw [total_cons] at hgt
    have hne : ¬ ((n : Int) = 0) := by omega
    have hhere : ¬ ((n : Int) - getBlockSize e ≤ 0) := by omega
    rw [List.length_cons, findBlockPosLoop, if_neg hne]
    simp only [hk, i32_sub_size hlt, if_neg hhere]
    rw [show (n : Int) - getBlockSize e = ((n - getBlockSize e : Nat) : Int) by omega]
    apply ih (k + 1) (n - getBlockSize e)
    · intro i hi
      have := hblocks (i + 1) (by simpa using hi)
      simpa [Nat.add_assoc, Nat.add_comm 1 i] using this
    · omega
    · omega

theorem findBlockPos_zero (blocks : Nat → Word) (nb : Int) :
    findBlockPos 0 blocks nb = some (0, 0) := by
  have hz : i32 ((0 : Nat) : Int) = 0 := i32_eq_self (by decide) (by decide)
  rw [findBlockPos, hz]
  cases u32 nb <;> rfl

/-! ## The search over any index -/

/-- The bytes recorded in the first `n` entries. -/
def sizesBelow (blocks : Nat → Word) (n : Nat) : Nat := total ((List.range n).map blocks)

theorem sizesBelow_succ (blocks : Nat → Word) (n : Nat) :
    sizesBelow blocks (n + 1) = sizesBelow blocks n + getBlockSize (blocks n) := by
  simp [sizesBelow, List.range_succ]

theorem sizesBelow_mono (blocks : Nat → Word) {m n : Nat} (h : m ≤ n) :
    sizesBelow blocks m ≤ sizesBelow blocks n := by
  induction n with
  | zero =>
    obtain rfl : m = 0 := by omega
    exact Nat.le_refl _
  | succ n ih =>
    rcases Nat.lt_or_ge n m with hlt | hge
    · obtain rfl : m = n + 1 := by omega
      exact Nat.le_refl _
    · rw [sizesBelow_succ]
      exact Nat.le_trans (ih hge) (Nat.le_add_right _ _)

/-- The entries that the loop reads, in order. -/
def findBlockPosReads (blocks : Nat → Word) : Nat → Nat → Int → List Nat
  | 0, _, _ => []
  | n + 1, current, remaining =>
    if remaining = 0 then [] else
    let left := i32 (remaining - getBlockSize (blocks current))
    if left ≤ 0 then [current]
    else current :: findBlockPosReads blocks n (current + 1) left

theorem findBlockPosReads_lt (blocks : Nat → Word) (n : Nat) : ∀ (current : Nat) (remaining : Int),
    ∀ i ∈ findBlockPosReads blocks n current remaining, i < current + n := by
  induction n with
  | zero =>
    intro current remaining i hi
    cases hi
  | succ n ih =>
    intro current remaining i hi
    rw [findBlockPosReads] at hi
    split at hi
    · cases hi
    simp only at hi
    split at hi
    · rw [List.mem_singleton] at hi
      omega
    · rcases List.mem_cons.mp hi with rfl | hrest
      · omega
      · have := ih _ _ i hrest
        omega

/-- Nothing but these entries matters for the result. -/
theorem findBlockPosLoop_reads {a b : Nat → Word} (n : Nat) : ∀ (current : Nat) (remaining : Int),
    (∀ i ∈ findBlockPosReads a n current remaining, b i = a i) →
    findBlockPosLoop b n current remaining = findBlockPosLoop a n current remaining := by
  induction n with
  | zero => exact fun _ _ _ => rfl
  | succ n ih =>
    intro current remaining hsame
    rw [findBlockPosReads] at hsame
    rw [findBlockPosLoop, findBlockPosLoop]
    by_cases hz : remaining = 0
    · rw [if_pos hz, if_pos hz]
    rw [if_neg hz] at hsame ⊢
    simp only at hsame ⊢
    rw [if_neg hz]
    by_cases hle : i32 (remaining - getBlockSize (a current)) ≤ 0
    · rw [if_pos hle] at hsame
      rw [hsame current (by simp), if_pos hle, if_pos hle]
    · rw [if_neg hle] at hsame
      rw [hsame current (by simp), if_neg hle, if_neg hle]
      exact ih _ _ fun i hi => hsame i (by simp [hi])

/-- `k` and `p` are where position `pos` is: the first `k` entries and `p` bytes. -/
structure At (blocks : Nat → Word) (nb pos k : Nat) (p : Int) : Prop where
  offset : (sizesBelow blocks k : Int) = pos - p
  start : pos = 0 → k = 0 ∧ p = 0
  inside : 0 < pos → k < nb ∧ 1 ≤ p ∧ p ≤ getBlockSize (blocks k)
  reaches : 0 < pos → pos ≤ sizesBelow blocks (k + 1)
  least : 0 < pos → ∀ j, j < k → sizesBelow blocks (j + 1) < pos

section

variable {blocks : Nat → Word} {nb pos : Nat}

theorem findBlockPos_eq_loop (nb_le : nb ≤ 1024) (pos_lt : pos < 2147483648) :
    findBlockPos pos blocks nb = findBlockPosLoop blocks nb 0 pos := by
  rw [findBlockPos, u32_natCast (by omega), i32_eq_self (by omega) (by omega)]

theorem findBlockPos_beyond (nb_le : nb ≤ 1024) (pos_lt : pos < 2147483648)
    (gt : sizesBelow blocks nb < pos) : findBlockPos pos blocks nb = none := by
  have hrun := @findBlockPosLoop_none blocks ((List.range nb).map blocks) 0 pos
    (by
      intro i hi
      rw [List.length_map, List.length_range] at hi
      simp [hi]) gt pos_lt
  rw [List.length_map, List.length_range] at hrun
  rw [findBlockPos_eq_loop nb_le pos_lt, hrun]

/-- The entries in front of the one that the search returns are the first ones. -/
theorem Found.at {A B : List Word} {e : Word} {p : Nat}
    (h : Found ((List.range nb).map blocks) pos A e B p) : At blocks nb pos A.length p := by
  have hlen := congrArg List.length h.split
  simp only [List.length_map, List.length_range, List.length_append, List.length_cons] at hlen
  have hA : (List.range A.length).map blocks = A := by
    have htake := congrArg (List.take A.length) h.split
    rwa [List.take_left, ← List.map_take, List.take_range, Nat.min_eq_left (by omega)] at htake
  have he : blocks A.length = e := by
    have hget := congrArg (fun l => l[A.length]?) h.split
    simpa [show A.length < nb by omega] using hget
  have hbelow : sizesBelow blocks A.length = total A := by rw [sizesBelow, hA]
  have hoffset := h.offset
  have hpos := h.pos
  have hle := h.le
  refine ⟨by omega, by omega, fun _ => ⟨by omega, by omega, ?_⟩, fun _ => ?_, fun _ j hj => ?_⟩
  · rw [he]
    omega
  · rw [sizesBelow_succ, he]
    omega
  · have := sizesBelow_mono blocks (show j + 1 ≤ A.length by omega)
    omega

theorem findBlockPos_within (nb_le : nb ≤ 1024) (pos_lt : pos < 2147483648)
    (le : pos ≤ sizesBelow blocks nb) :
    ∃ k p, findBlockPos pos blocks nb = some (k, p) ∧ At blocks nb pos k p := by
  rcases Nat.eq_zero_or_pos pos with rfl | hpos
  · exact ⟨0, 0, findBlockPos_zero blocks nb, by simp [sizesBelow], fun _ => ⟨rfl, rfl⟩,
      fun h => absurd h (lt_irrefl 0), fun h => absurd h (lt_irrefl 0),
      fun h => absurd h (lt_irrefl 0)⟩
  · obtain ⟨A, e, B, p, hfound, hrun⟩ :=
      @findBlockPosLoop_found blocks ((List.range nb).map blocks) 0 pos
        (by
          intro i hi
          rw [List.length_map, List.length_range] at hi
          simp [hi]) hpos le pos_lt
    rw [List.length_map, List.length_range, Nat.zero_add] at hrun
    exact ⟨A.length, p, by rw [findBlockPos_eq_loop nb_le pos_lt, hrun], hfound.at⟩

end

/-- The search is a search in the prefix sums of the sizes, over any index. -/
theorem findBlockPos_prefix_sum (blocks : Nat → Word) {nb pos : Nat} (nb_le : nb ≤ 1024)
    (pos_lt : pos < 2147483648) :
    (∀ i ∈ findBlockPosReads blocks (u32 nb) 0 (i32 pos), i < nb) ∧
      (∀ other : Nat → Word, (∀ i, i < nb → other i = blocks i) →
        findBlockPos pos other nb = findBlockPos pos blocks nb) ∧
      (findBlockPos pos blocks nb = none ↔ sizesBelow blocks nb < pos) ∧
      ∀ k p, findBlockPos pos blocks nb = some (k, p) → At blocks nb pos k p := by
  have hreads : ∀ i ∈ findBlockPosReads blocks (u32 nb) 0 (i32 pos), i < nb := by
    intro i hi
    have := findBlockPosReads_lt blocks _ _ _ i hi
    rwa [Nat.zero_add, u32_natCast (by omega)] at this
  refine ⟨hreads, fun other hsame => ?_, ?_, ?_⟩
  · exact findBlockPosLoop_reads _ _ _ fun i hi => hsame i (hreads i hi)
  · constructor
    · intro hnone
      by_contra hle
      obtain ⟨k, p, hrun, _⟩ := findBlockPos_within nb_le pos_lt (Nat.not_lt.mp hle)
      rw [hnone] at hrun
      cases hrun
    · exact findBlockPos_beyond nb_le pos_lt
  · intro k p hrun
    rcases Nat.lt_or_ge (sizesBelow blocks nb) pos with hgt | hle
    · rw [findBlockPos_beyond nb_le pos_lt hgt] at hrun
      cases hrun
    · obtain ⟨k', p', hrun', hat⟩ := findBlockPos_within nb_le pos_lt hle
      rw [hrun'] at hrun
      cases hrun
      exact hat

/-- Two blocks of ten bytes with an empty one between them: position 12 is two bytes
into the last one. -/
theorem findBlockPos_prefix_sum_empty_block :
    findBlockPos 12 (fun i => if i = 1 then freshEntry 21 else setBlockSize (freshEntry (20 + i)) 10)
        (3 : Nat) = some (2, 2) ∧
      At (fun i => if i = 1 then freshEntry 21 else setBlockSize (freshEntry (20 + i)) 10) 3 12 2 2 := by
  have hrun : findBlockPos 12
      (fun i => if i = 1 then freshEntry 21 else setBlockSize (freshEntry (20 + i)) 10)
      (3 : Nat) = some (2, 2) := by
    decide +kernel
  exact ⟨hrun, (findBlockPos_prefix_sum _ (by decide) (by decide)).2.2.2 2 2 hrun⟩

section OnFiles

variable {s : Ctx} {es : List Word}

theorem findBlockPos_found (h : Shape s es) {pos : Nat} (hpos : 0 < pos)
    (hle : pos ≤ total es) :
    ∃ A e B p, Found es pos A e B p ∧
      findBlockPos pos s.blocks (i32 ((s.node.iBlocks : Int) - 1)) = some (A.length, (p : Int)) := by
  have hl := h.length_le
  have ht := total_le es
  obtain ⟨A, e, B, p, hf, hrun⟩ := @findBlockPosLoop_found s.blocks es 0 pos
    (fun i hi => by rw [Nat.zero_add]; exact h.slots i (by omega)) hpos hle (by omega)
  refine ⟨A, e, B, p, hf, ?_⟩
  rw [findBlockPos, h.nbBlocks, u32_natCast (by omega), i32_eq_self (by omega) (by omega)]
  rw [hrun, Nat.zero_add]

theorem findBlockPos_none (h : Shape s es) {pos : Nat} (hgt : total es < pos)
    (hlt : pos < 2147483648) :
    findBlockPos pos s.blocks (i32 ((s.node.iBlocks : Int) - 1)) = none := by
  have hl := h.length_le
  have hrun := @findBlockPosLoop_none s.blocks es 0 pos
    (fun i hi => by rw [Nat.zero_add]; exact h.slots i (by omega)) hgt hlt
  rw [findBlockPos, h.nbBlocks, u32_natCast (by omega), i32_eq_self (by omega) (by omega)]
  exact hrun

end OnFiles

end Search
