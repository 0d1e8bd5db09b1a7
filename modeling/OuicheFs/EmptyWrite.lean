import OuicheFs.Completion
import OuicheFs.EndOfFile

/-!
# Writes of no bytes

`ouichefs_light_write` makes room at the cursor before it looks at how much there
is to write. With nothing to write, a block with the cursor inside is split all
the same, and the reader, who stops at the end of a block, stops at the cut. A
file without a data block gets an empty one. Only reads with a position that
narrows to a negative `int` can tell.
-/
namespace EmptyWrite

open CInt ByteBuffer IndexEntry Allocator FileContext Layout Search OuicheFile OuicheWrite
  OuicheRead Reserve Insert LightWrite Completion FileRun Streaming EndOfFile

/-- Every read gets the same of both files, whatever fails. -/
def SameReads (s t : Ctx) : Prop :=
  ∀ before io fFlags size pos,
    (ouichefsLightRead before { t with io := io } fFlags size pos).ret =
        (ouichefsLightRead before { s with io := io } fFlags size pos).ret ∧
      (ouichefsLightRead before { t with io := io } fFlags size pos).data =
        (ouichefsLightRead before { s with io := io } fFlags size pos).data

/-- The file of `t` is that of `s`, with `extra` empty blocks behind its `n` blocks. -/
structure Padded (s t : Ctx) (n extra : Nat) : Prop where
  few : n + extra ≤ 1024
  count : s.node.iBlocks = n + 1
  longer : t.node.iBlocks = n + extra + 1
  blocks : ∀ i, i < n → t.blocks i = s.blocks i
  bytes : ∀ i, i < n → t.disk (getBlockNumber (s.blocks i)) = s.disk (getBlockNumber (s.blocks i))
  empty : ∀ i, n ≤ i → i < n + extra → getBlockSize (t.blocks i) = 0
  start : extra ≠ 0 → 0 < n

theorem findBlockPosLoop_empty {blocks : Nat → Word} (n : Nat) : ∀ (k : Nat) (r : Int),
    0 < r → r < 2147483648 → (∀ i, k ≤ i → i < k + n → getBlockSize (blocks i) = 0) →
      findBlockPosLoop blocks n k r = none := by
  induction n with
  | zero =>
    intro k r hpos _ _
    rw [findBlockPosLoop, if_neg (by omega)]
  | succ n ih =>
    intro k r hpos hlt hempty
    have hleft : i32 (r - getBlockSize (blocks k)) = r := by
      rw [hempty k (Nat.le_refl _) (by omega), i32_eq_self (by omega) (by omega)]
      omega
    rw [findBlockPosLoop, if_neg (by omega)]
    simp only [hleft]
    rw [if_neg (by omega)]
    exact ih (k + 1) r hpos hlt (fun i hlo hhi => hempty i (by omega) (by omega))

/-- The search does not go into the empty blocks. -/
theorem findBlockPosLoop_padded {blocks blocks' : Nat → Word} {extra : Nat} (n : Nat) :
    ∀ (k : Nat) (r : Int), r < 2147483648 → (∀ i, k ≤ i → i < k + n → blocks' i = blocks i) →
      (∀ i, k + n ≤ i → i < k + n + extra → getBlockSize (blocks' i) = 0) →
      (extra ≠ 0 → n = 0 → 0 < r) →
      findBlockPosLoop blocks' (n + extra) k r = findBlockPosLoop blocks n k r := by
  induction n with
  | zero =>
    intro k r hlt _ hempty hstart
    by_cases hextra : extra = 0
    · rw [hextra]
      rfl
    have hpos := hstart hextra rfl
    rw [Nat.zero_add, findBlockPosLoop_empty extra k r hpos hlt hempty, findBlockPosLoop,
      if_neg (by omega)]
  | succ n ih =>
    intro k r hlt hsame hempty _
    rw [show n + 1 + extra = n + extra + 1 by omega, findBlockPosLoop, findBlockPosLoop,
      hsame k (Nat.le_refl _) (by omega)]
    split
    · rfl
    simp only
    split
    · rfl
    rename_i hleft
    apply ih (k + 1)
    · exact (i32_range _).2
    · exact fun i hlo hhi => hsame i (by omega) (by omega)
    · exact fun i hlo hhi => hempty i (by omega) (by omega)
    · exact fun _ _ => not_le.mp hleft

theorem findBlockPosLoop_lt {blocks : Nat → Word} (n : Nat) : ∀ (k : Nat) (r : Int) {c : Nat}
    {p : Int}, findBlockPosLoop blocks n k r = some (c, p) → c < k + n ∨ c = k + n ∧ p = 0 := by
  induction n with
  | zero =>
    intro k r c p h
    rw [findBlockPosLoop] at h
    split at h
    · rename_i hz
      cases h
      exact Or.inr ⟨rfl, hz⟩
    · cases h
  | succ n ih =>
    intro k r c p h
    rw [findBlockPosLoop] at h
    split at h
    · cases h
      exact Or.inl (by omega)
    simp only at h
    split at h
    · cases h
      exact Or.inl (by omega)
    · have := ih (k + 1) _ h
      omega

/-- The copy loop stops at the first empty block. -/
theorem lightReadLoop_padded (before : Nat → Byte) {extra : Nat} (n : Nat) :
    ∀ (s t : Ctx) (k : Nat) (lp : Int) (remaining : Nat), t.io = s.io →
      (∀ i, k ≤ i → i < k + n → t.blocks i = s.blocks i) →
      (∀ i, k ≤ i → i < k + n →
        t.disk (getBlockNumber (s.blocks i)) = s.disk (getBlockNumber (s.blocks i))) →
      (∀ i, k + n ≤ i → i < k + n + extra → getBlockSize (t.blocks i) = 0) →
      (n = 0 → lp = 0) →
      (lightReadLoop before (n + extra) t k lp remaining).2 =
        (lightReadLoop before n s k lp remaining).2 := by
  induction n with
  | zero =>
    intro s t k lp remaining _ _ _ hempty hstart
    cases extra with
    | zero => rfl
    | succ extra =>
      rw [hstart rfl, Nat.zero_add]
      refine (lightReadLoop_silent before (extra + 1) t k 0 remaining ?_).1
      rw [hempty k (Nat.le_refl _) (by omega)]
      rfl
  | succ n ih =>
    intro s t k lp remaining hio hsame hbytes hempty _
    have hat : (t.touch k).blocks k = (s.touch k).blocks k := hsame k (Nat.le_refl _) (by omega)
    have hdata : (t.touch k).popBread.disk (getBlockNumber ((s.touch k).blocks k)) =
        (s.touch k).popBread.disk (getBlockNumber ((s.touch k).blocks k)) :=
      hbytes k (Nat.le_refl _) (by omega)
    have hread : (t.touch k).io = (s.touch k).io := hio
    have hcopy : (t.touch k).popBread.io.ucopy = (s.touch k).popBread.io.ucopy := by
      change t.io.ucopy = s.io.ucopy
      rw [hio]
    rw [show n + 1 + extra = n + extra + 1 by omega, lightReadLoop, lightReadLoop]
    split
    · rfl
    simp only [hat, hread, hdata, hcopy]
    split
    · rfl
    split
    · rfl
    split
    · rfl
    simp only
    rw [ih (s.touch k).popBread.popUcopy (t.touch k).popBread.popUcopy (k + 1)]
    · simp only [Ctx.popUcopy, Ctx.popBread, Ctx.touch, hio]
    · exact fun i hlo hhi => hsame i (by omega) (by omega)
    · exact fun i hlo hhi => hbytes i (by omega) (by omega)
    · exact fun i hlo hhi => hempty i (by omega) (by omega)
    · exact fun _ => rfl

theorem Padded.sameReads {s t : Ctx} {n extra : Nat} (h : Padded s t n extra) : SameReads s t := by
  intro before io fFlags size pos
  have hfew := h.few
  have hs : i32 ((s.node.iBlocks : Int) - 1) = (n : Nat) := by
    rw [h.count, i32_eq_self (by omega) (by omega)]
    omega
  have ht : i32 ((t.node.iBlocks : Int) - 1) = (n + extra : Nat) := by
    rw [h.longer, i32_eq_self (by omega) (by omega)]
    omega
  have hcursor : findBlockPos pos t.blocks (i32 ((t.node.iBlocks : Int) - 1)) =
      findBlockPos pos s.blocks (i32 ((s.node.iBlocks : Int) - 1)) := by
    rw [findBlockPos, findBlockPos, hs, ht, u32_natCast (by omega), u32_natCast (by omega)]
    apply findBlockPosLoop_padded
    · exact (i32_range _).2
    · exact fun i _ hi => h.blocks i (by omega)
    · exact fun i hlo hhi => h.empty i (by omega) (by omega)
    · intro hextra hz
      have := h.start hextra
      omega
  cases hflags : readFlags fFlags with
  | false =>
    unfold ouichefsLightRead
    rw [if_pos hflags, if_pos hflags]
    exact ⟨rfl, rfl⟩
  | true =>
    by_cases hnowhere : io.bread 0 = false ∨
        findBlockPos pos s.blocks (i32 ((s.node.iBlocks : Int) - 1)) = none
    · have hs' := ouichefsLightRead_unfound (s := { s with io := io }) before fFlags size hflags
        hnowhere
      have ht' := ouichefsLightRead_unfound (s := { t with io := io }) before fFlags size hflags
        (by rw [← hcursor] at hnowhere; exact hnowhere)
      rw [hs', ht']
      exact ⟨rfl, rfl⟩
    obtain ⟨hunread, hsome⟩ := not_or.mp hnowhere
    have hread : io.bread 0 = true := by simpa using hunread
    obtain ⟨⟨lbi, lp⟩, hfound⟩ := Option.ne_none_iff_exists'.mp hsome
    have hin : lbi < n ∨ lbi = n ∧ lp = 0 := by
      have hloop := hfound
      rw [findBlockPos, hs, u32_natCast (by omega)] at hloop
      have := findBlockPosLoop_lt n 0 _ hloop
      omega
    have hrun := ouichefsLightRead_loop (s := { s with io := io }) before fFlags size hflags
      hread hfound rfl
    have hrun' := ouichefsLightRead_loop (s := { t with io := io }) before fFlags size hflags
      hread (hcursor.trans hfound) rfl
    have hdata := @lightReadLoop_padded before extra (n - lbi) ({ s with io := io } : Ctx).popBread
      ({ t with io := io } : Ctx).popBread lbi lp size rfl
      (fun i _ hi => h.blocks i (by omega)) (fun i _ hi => h.bytes i (by omega))
      (fun i hlo hhi => h.empty i (by omega) (by omega)) (by omega)
    have hcount : (i32 ((({ s with io := io } : Ctx).node.iBlocks : Int) - 1) - (lbi : Int)).toNat =
        n - lbi := by
      change (i32 ((s.node.iBlocks : Int) - 1) - (lbi : Int)).toNat = n - lbi
      rw [hs]
      omega
    have hcount' : (i32 ((({ t with io := io } : Ctx).node.iBlocks : Int) - 1) -
        (lbi : Int)).toNat = n - lbi + extra := by
      change (i32 ((t.node.iBlocks : Int) - 1) - (lbi : Int)).toNat = n - lbi + extra
      rw [ht]
      omega
    rw [hrun, hrun', hcount, hcount', hdata]
    exact ⟨rfl, rfl⟩

/-- A file that is not touched is read the same. -/
theorem sameReads_of_kept {s t : Ctx} {es : List Word} (shape : Shape s es) (disk : t.disk = s.disk)
    (node : t.node = s.node) : SameReads s t := by
  refine @Padded.sameReads s t es.length 0 ⟨shape.length_le, shape.iBlocks, ?_, ?_, ?_, ?_, ?_⟩
  · rw [node, shape.iBlocks]
  · exact fun i _ => blocks_congr (by rw [node]) (by rw [disk]) i
  · exact fun i _ => by rw [disk]
  · exact fun i hlo hhi => by omega
  · exact fun h => absurd rfl h

/-- One empty entry behind the last. -/
theorem sameReads_of_trailing {s t : Ctx} {es : List Word} {x : Word} (shape : Shape s es)
    (shape' : Shape t (es ++ [x])) (ne : es ≠ []) (empty : getBlockSize x = 0)
    (bytes : ∀ b ∈ numbers es, t.disk b = s.disk b) : SameReads s t := by
  have hl' := shape'.length_le
  rw [List.length_append, List.length_singleton] at hl'
  have hat : ∀ i, i < es.length → s.blocks i = es[i]?.getD 0 := fun i hi =>
    shape.slots i (by omega)
  refine Padded.sameReads ⟨hl', shape.iBlocks, ?_, ?_, ?_, ?_, ?_⟩
  · rw [shape'.iBlocks, List.length_append, List.length_singleton]
  · intro i hi
    rw [shape'.slots i (by omega), hat i hi, List.getElem?_append_left hi]
  · intro i hi
    apply bytes
    rw [hat i hi, List.getElem?_eq_getElem hi]
    exact List.mem_map_of_mem (List.getElem_mem hi)
  · intro i hlo hhi
    obtain rfl : i = es.length := by omega
    rw [shape'.slots _ (by omega), List.getElem?_concat_length]
    exact empty
  · exact fun _ => List.length_pos_iff.mpr ne

section

variable {s : Ctx} {A B : List Word} {e : Word} {p pos : Nat}

theorem dataBlocks_none (h : p ≤ 4096) : dataBlocks 0 p = 0 := by
  have := (dataBlocks_spec 0 h).2
  omega

/-- Without data the insertion ends before the copy loop. -/
theorem lightWriteInsert_nothing {t : Ctx} {lbi nb start lastBli : Nat} {move shift : Bool}
    (le : p ≤ 4096) (hnb : nb = if s.blocks lbi = 0 then move.toNat + 1 else move.toNat)
    (hstart : start = if s.blocks lbi = 0 then lbi else lbi + 1)
    (space : ¬ spaceAvailable (s.touch lbi) nb < 0)
    (reserved : (reserveEmptyBlocks start nb (if shift = true ∧ nb > 0 then
      shiftBlocks (s.touch lbi) start nb lastBli else s.touch lbi)).1 = t) :
    (lightWriteInsert s [] lbi p move shift lastBli).1 =
      (if move then moveOldContentTo t lbi (lbi + nb) p else (t, 0)).1 := by
  have hat : (s.touch lbi).blocks lbi = s.blocks lbi := rfl
  unfold lightWriteInsert
  simp only [hat]
  rw [← dataBlocks, List.length_nil, dataBlocks_none le, Nat.zero_add, ← hnb, ← hstart,
    if_neg space, reserved]
  obtain ⟨r, hr⟩ : ∃ r : Ctx × Int, r = if move = true then
    moveOldContentTo t lbi (lbi + nb) p else (t, 0) := ⟨_, rfl⟩
  rw [← hr]
  split
  · rfl
  · rw [lightWriteLoop_nothing]

/-- A file without a data block, and no block to spare. -/
theorem lightWriteBody_nothing_full (shape : Shape s []) (size : s.node.iSize = 0)
    (space : spaceAvailable s 1 < 0) :
    (lightWriteBody s [] 0).1.disk = s.disk ∧ (lightWriteBody s [] 0).1.node = s.node := by
  have hat : ({ s with touched := 0 :: s.touched } : Ctx).blocks 0 = 0 :=
    shape.slots 0 (by decide)
  have hspace : spaceAvailable (Ctx.touch { s with touched := 0 :: s.touched } ((0 : Nat) : Int)) 1 <
    0 := space
  rw [lightWriteBody_empty_eq shape size, lightWriteInsert_refused ?_ hspace]
  · exact ⟨rfl, rfl⟩
  · rw [if_pos hat, List.length_nil, dataBlocks_none (by omega)]
    rfl

/-- A file without a data block gets an empty one. -/
theorem lightWriteBody_nothing_new (shape : Shape s []) (held : Held s []) (size : s.node.iSize = 0)
    (addr : Addressable s.sbi 1) (space : ¬ spaceAvailable s 1 < 0) :
    ∃ x, getBlockSize x = 0 ∧ Shape (lightWriteBody s [] 0).1 [x] := by
  obtain ⟨q, hq⟩ : ∃ q : Ctx, q = Ctx.touch { s with touched := 0 :: s.touched } ((0 : Nat) : Int) :=
    ⟨_, rfl⟩
  have hqshape : Shape q ([] ++ []) := by
    rw [hq]
    exact shape.congr (fun _ _ => rfl) rfl rfl
  have hqheld : Held q ([] ++ []) := by
    rw [hq]
    exact ⟨held.ok, held.data, held.index⟩
  have hqspace : ¬ spaceAvailable q 1 < 0 := by
    rw [hq]
    exact space
  have hfree := hqspace
  rw [spaceAvailable_neg_iff hqshape (by omega)] at hfree
  have hqsbi : q.sbi = s.sbi := by
    rw [hq]
    rfl
  obtain ⟨fresh, hins⟩ := insert_fresh hqshape hqheld (hqsbi ▸ addr) (by simp) (by omega)
  obtain ⟨x, rfl⟩ := List.length_eq_one_iff.mp hins.length
  refine ⟨freshEntry x, getBlockSize_freshEntry x, ?_⟩
  have hat : ({ s with touched := 0 :: s.touched } : Ctx).blocks 0 = 0 :=
    shape.slots 0 (by decide)
  rw [lightWriteBody_empty_eq shape size, @lightWriteInsert_nothing _ _ _ _ 1 0 _ _ _ (by omega)
    (by rw [if_pos hat]; rfl) (by rw [if_pos hat]) (by rw [← hq]; exact hqspace) rfl, ← hq]
  simpa [freshEntries] using hins.shape

variable (shape : Shape s (A ++ e :: B)) (size : s.node.iSize = total (A ++ e :: B))
  (held : Held s (A ++ e :: B)) (le : pos ≤ total (A ++ e :: B))
  (found : findBlockPos pos s.blocks (i32 ((s.node.iBlocks : Int) - 1)) =
    some (A.length, (p : Int)))

include shape size held le found

/-- At the end of a block there is nothing to move. -/
theorem lightWriteBody_nothing_end (end_ : p = getBlockSize e) :
    (lightWriteBody s [] pos).1.disk = s.disk ∧ (lightWriteBody s [] pos).1.node = s.node := by
  have hs := getBlockSize_le e
  have hne : e ≠ 0 := ne_zero_of_getBlockNumber_pos (held.data _ (by simp)).pos
  have hat : ({ s with touched := (List.range (A.length + 1)).map Int.ofNat ++ s.touched } :
    Ctx).blocks A.length = e := shape.blocks_at
  have hmove : decide (p < getBlockSize e) = false := by simp [end_]
  rw [lightWriteBody_at_eq shape size le found (Nat.le_of_eq end_), hmove,
    @lightWriteInsert_nothing _ _ _ _ 0 (A.length + 1) _ _ _ (by omega)
      (by rw [hat, if_neg hne]; rfl) (by rw [hat, if_neg hne]) ?_ rfl]
  · simp only [lt_irrefl, and_false, if_false, reserveEmptyBlocks, Bool.false_eq_true]
    exact ⟨rfl, rfl⟩
  · intro h
    have hl := shape.length_le
    change spaceAvailable s 0 < 0 at h
    rw [spaceAvailable_neg_iff shape (by omega)] at h
    omega

/-- Without a block to spare, nothing happens. -/
theorem lightWriteBody_nothing_refused (lt : p < getBlockSize e) (space : spaceAvailable s 1 < 0) :
    (lightWriteBody s [] pos).1.disk = s.disk ∧ (lightWriteBody s [] pos).1.node = s.node := by
  have hs := getBlockSize_le e
  have hne : e ≠ 0 := ne_zero_of_getBlockNumber_pos (held.data _ (by simp)).pos
  have hat : ({ s with touched := (List.range (A.length + 1)).map Int.ofNat ++ s.touched } :
    Ctx).blocks A.length = e := shape.blocks_at
  have hmove : decide (p < getBlockSize e) = true := decide_eq_true lt
  have hspace : spaceAvailable (Ctx.touch { s with
    touched := (List.range (A.length + 1)).map Int.ofNat ++ s.touched } A.length) 1 < 0 := space
  rw [lightWriteBody_at_eq shape size le found (Nat.le_of_lt lt), hmove,
    lightWriteInsert_refused ?_ hspace]
  · exact ⟨rfl, rfl⟩
  · rw [hat, if_neg hne, List.length_nil, dataBlocks_none (by omega)]
    rfl

/-- With the cursor inside a block, an empty entry is put behind it, and the bytes
behind the cursor are to be moved there. -/
theorem lightWriteBody_nothing_opens (lt : p < getBlockSize e) (addr : Addressable s.sbi 1)
    (space : ¬ spaceAvailable s 1 < 0) :
    ∃ v x, v.io = s.io ∧ Shape v (A ++ e :: [] ++ freshEntry x :: B) ∧
      (∀ b ∈ numbers (A ++ e :: B), v.disk b = s.disk b) ∧
      (lightWriteBody s [] pos).1 = (moveOldContentTo v A.length (A.length + 1) p).1 := by
  have hs := getBlockSize_le e
  have hne : e ≠ 0 := ne_zero_of_getBlockNumber_pos (held.data _ (by simp)).pos
  have hat : ({ s with touched := (List.range (A.length + 1)).map Int.ofNat ++ s.touched } :
    Ctx).blocks A.length = e := shape.blocks_at
  have hmove : decide (p < getBlockSize e) = true := decide_eq_true lt
  obtain ⟨q, hq⟩ : ∃ q : Ctx, q = Ctx.touch { s with
    touched := (List.range (A.length + 1)).map Int.ofNat ++ s.touched } A.length := ⟨_, rfl⟩
  have hsplit : (A ++ [e]) ++ B = A ++ e :: B := by simp
  have hlenA : (A ++ [e]).length = A.length + 1 := by simp
  have hqshape : Shape q ((A ++ [e]) ++ B) := by
    rw [hq, hsplit]
    exact shape.congr (fun _ _ => rfl) rfl rfl
  have hqheld : Held q ((A ++ [e]) ++ B) := by
    rw [hq, hsplit]
    exact ⟨held.ok, held.data, held.index⟩
  have hqspace : ¬ spaceAvailable q 1 < 0 := by
    rw [hq]
    exact space
  have hroom := hqspace
  rw [spaceAvailable_neg_iff hqshape (by omega), List.length_append, hlenA] at hroom
  have hqsbi : q.sbi = s.sbi := by
    rw [hq]
    rfl
  obtain ⟨fresh, hins⟩ := insert_fresh hqshape hqheld (hqsbi ▸ addr)
    (by rw [hlenA]; omega) (by omega)
  obtain ⟨x, rfl⟩ := List.length_eq_one_iff.mp hins.length
  have hshift : decide (A.length ≠ A.length + B.length) = true ↔ B ≠ [] := by
    rw [decide_eq_true_iff, ← List.length_pos_iff]
    omega
  rw [← shift_behind hshift (fun _ => rfl), hlenA] at hins
  have hlist : A ++ [e] ++ freshEntries [x] ++ B = A ++ e :: [] ++ freshEntry x :: B := by
    simp [freshEntries]
  refine ⟨_, x, ?_, hlist ▸ hins.shape, ?_, ?_⟩
  · rw [reserveEmptyBlocks_io]
    have hqio : q.io = s.io := by
      rw [hq]
      rfl
    split
    · exact (shiftBlocksLoop_io _ _ _ _).trans hqio
    · exact hqio
  · intro b hb
    have hqdisk : q.disk b = s.disk b := by
      rw [hq]
      rfl
    rw [← hqdisk]
    apply hins.frame.disk
    rintro rfl
    exact hqshape.apart (hsplit ▸ hb)
  · rw [lightWriteBody_at_eq shape size le found (Nat.le_of_lt lt), hmove,
      @lightWriteInsert_nothing _ _ _ _ 1 (A.length + 1) _ _ _ (by omega)
        (by rw [hat, if_neg hne]; rfl) (by rw [hat, if_neg hne]) (by rw [← hq]; exact hqspace)
        rfl, ← hq, if_pos rfl]

/-- If both blocks can be read, the block is split at the cursor. If not, the new
entry stays empty. -/
theorem lightWriteBody_nothing_inside (lt : p < getBlockSize e) (addr : Addressable s.sbi 1)
    (space : ¬ spaceAvailable s 1 < 0) :
    ((s.io.bread 0 = false ∨ s.io.bread 1 = false) ∧
      ∃ x, getBlockSize x = 0 ∧ Shape (lightWriteBody s [] pos).1 (A ++ e :: x :: B) ∧
        ∀ b ∈ numbers (A ++ e :: B), (lightWriteBody s [] pos).1.disk b = s.disk b) ∨
    (¬ (s.io.bread 0 = false ∨ s.io.bread 1 = false) ∧
      ∃ d x, getBlockSize d = p ∧ Shape (lightWriteBody s [] pos).1 (A ++ d :: x :: B)) := by
  have hs := getBlockSize_le e
  obtain ⟨v, x, hio, hshape, hbytes, hrun⟩ :=
    lightWriteBody_nothing_opens shape size held le found lt addr space
  rw [hrun, ← hio]
  rcases moveOldContentTo_spec hshape (Nat.le_of_lt lt) with
    ⟨hbad, u, hmoved, hdisk, _, hnode⟩ | ⟨hgood, u, hmoved, hm⟩
  · have hu : (moveOldContentTo v A.length (A.length + 1) p).1 = u := congrArg Prod.fst hmoved
    refine Or.inl ⟨hbad, freshEntry x, getBlockSize_freshEntry x, ?_, ?_⟩
    · have hshape' : Shape v (A ++ e :: freshEntry x :: B) := by simpa using hshape
      rw [hu]
      refine hshape'.congr ?_ (by rw [hnode]) (by rw [hnode])
      intro i _
      exact blocks_congr (by rw [hnode]) (by rw [hdisk]) i
    · intro b hb
      rw [hu, hdisk]
      exact hbytes b hb
  · have hu : (moveOldContentTo v A.length (A.length + 1) p).1 = u := congrArg Prod.fst hmoved
    have hshape' : Shape u (A ++ setBlockSize e p ::
        setBlockSize (freshEntry x) ((getBlockSize e - p : Nat) : Int) :: B) := by
      simpa using hm.exchanged.shape
    rw [hu]
    exact Or.inr ⟨hgood, _, _, getBlockSize_setBlockSize_nat e (show p ≤ 4096 by omega), hshape'⟩

end

theorem ouichefsLightWrite_nothing (s : Ctx) (fFlags pos : Nat)
    (fits : startPos s fFlags pos ≤ maxFilesize) :
    (ouichefsLightWrite s fFlags [] pos).ctx = if s.io.bread 0 = false then s.popBread
      else (lightWriteBody s.popBread [] (startPos s fFlags pos)).1 := by
  have hmax : ¬ startPos s fFlags pos + ([] : List Byte).length > maxFilesize := Nat.not_lt.mpr fits
  unfold ouichefsLightWrite
  rw [writeFlags_eq]
  simp only [if_neg hmax]
  split
  · rfl
  · simp

section

variable {s t : Ctx} {A B : List Word} {e d x : Word} {p pos : Nat}

/-- The position of the cut was inside a block and is at the end of one. -/
theorem reads_differ_split (shape : Shape s (A ++ e :: B)) (shape' : Shape t (A ++ d :: x :: B))
    (found : findBlockPos pos s.blocks (i32 ((s.node.iBlocks : Int) - 1)) =
      some (A.length, (p : Int)))
    (offset : pos = total A + p) (lt : p < getBlockSize e) (cut : getBlockSize d = p) :
    ¬ SameReads s t := by
  intro h
  have hs := getBlockSize_le e
  have hl := shape.length_le
  have hlast := total_le (A ++ e :: B)
  rw [total_append, total_cons] at hlast
  have hnothing : NothingBehind (A ++ d :: x :: B) (i32 pos) := by
    rw [i32_eq_self (by omega) (by omega)]
    refine .boundary (A ++ [d]) (x :: B) (by simp) (by simp) ?_
    rw [total_append, total_cons, total_nil, cut, offset]
    rfl
  obtain ⟨_, _, hdata, _⟩ := (emptyAt_iff shape').mpr hnothing (fun _ => 0) calmIo 0 1 (by decide)
  have hat : s.blocks A.length = e := shape.blocks_at
  refine ouichefsLightRead_speaks (fun _ => 0) found ?_ ?_ ((h _ _ _ _ _).2.symm.trans hdata)
  · rw [shape.nbBlocks, List.length_append, List.length_cons]
    omega
  · rw [hat, u64]
    omega

/-- No read gets past the empty entry to the blocks behind it. -/
theorem reads_differ_blocked (shape : Shape s (A ++ e :: B)) (shape' : Shape t (A ++ e :: x :: B))
    (positive : ∀ f ∈ A ++ e :: B, 0 < getBlockSize f) (ne : B ≠ []) (empty : getBlockSize x = 0) :
    ¬ SameReads s t := by
  intro h
  have hlist : A ++ e :: x :: B = (A ++ [e]) ++ x :: B := by simp
  obtain ⟨_, _, hrun⟩ := @ouichefsLightRead_run { s with io := calmIo } _ (fun _ => 0) 0
    (total (A ++ e :: B)) 0 [] (A ++ e :: B) 0 (shape.congr (fun _ _ => rfl) rfl rfl)
    ⟨rfl, rfl, fun _ => rfl, fun _ => rfl⟩ (by decide) rfl .start (findBlockPos_zero _ _)
  obtain ⟨_, _, hrun'⟩ := @ouichefsLightRead_run { t with io := calmIo } _ (fun _ => 0) 0
    (total (A ++ e :: B)) 0 [] (A ++ e :: x :: B) 0 (shape'.congr (fun _ _ => rfl) rfl rfl)
    ⟨rfl, rfl, fun _ => rfl, fun _ => rfl⟩ (by decide) rfl .start (findBlockPos_zero _ _)
  have hdata := congrArg List.length (h (fun _ => 0) calmIo 0 (total (A ++ e :: B)) 0).2
  rw [hrun, hrun'] at hdata
  have hfull := gather_full s.disk (A ++ e :: B) 0 (total (A ++ e :: B))
    (fun C f D hes _ => Nat.ne_of_gt (positive f (by rw [hes]; simp)))
    (by
      right
      obtain ⟨f, D, hes⟩ := List.exists_cons_of_ne_nil (show A ++ e :: B ≠ [] by simp)
      exact ⟨f, D, hes, positive f (by rw [hes]; simp)⟩)
    (fun _ _ => Nat.zero_le _)
  have hshort := gather_blocked t.disk (A ++ [e]) (B := B) empty 0 (total (A ++ e :: B))
    (fun _ _ => Nat.zero_le _)
  rw [← hlist] at hshort
  obtain ⟨b, D, rfl⟩ := List.exists_cons_of_ne_nil ne
  have hb := positive b (by simp)
  simp only [total_append, total_cons, total_nil] at hfull hshort hdata
  omega

/-- One byte before the start of the empty block. -/
theorem reads_differ_opened (shape : Shape s []) (shape' : Shape t [x])
    (empty : getBlockSize x = 0) : ¬ SameReads s t := by
  intro h
  obtain ⟨_, _, hdata, _⟩ := (emptyAt_iff shape).mpr (.empty rfl) (fun _ => 0) calmIo 0 1 (by decide)
  have hneg : i32 ((4294967295 : Nat) : Int) = -1 := by decide
  have hfound := findBlockPos_negative shape' (by rw [hneg]; decide)
  rw [hneg, empty, if_neg (by decide)] at hfound
  have hat : t.blocks 0 = x := by simpa using shape'.slots 0 (by decide)
  refine ouichefsLightRead_speaks (fun _ => 0) hfound ?_ ?_ ((h _ _ _ _ _).2.trans hdata)
  · rw [shape'.nbBlocks]
    exact Int.zero_lt_one
  · rw [hat, empty]
    decide

end

/-- The call stops before it changes the index, the position is the end of a block,
or the cursor is in the last block and its bytes cannot be moved. -/
inductive Unseen (s : Ctx) (pos : Nat) : Prop
  | unread : s.io.bread 0 = false → Unseen s pos
  | refused : spaceAvailable s 1 < 0 → Unseen s pos
  | ends (A B : List Word) : s.entries = A ++ B → A ≠ [] → pos = total A → Unseen s pos
  | unmoved (A : List Word) (e : Word) : s.entries = A ++ [e] → A = [] ∨ total A < pos →
      s.io.bread 1 = false ∨ s.io.bread 2 = false → Unseen s pos

section

variable {s : Ctx} {es : List Word} {fFlags pos : Nat}

/-- A cursor with bytes of its block behind it. -/
theorem Unseen.not_inside {A B : List Word} {e : Word} {p : Nat} (shape : Shape s (A ++ e :: B))
    (cut : Cut (A ++ e :: B) pos (e :: B) p) (lt : p < getBlockSize e)
    (read : ¬ s.io.bread 0 = false) (space : ¬ spaceAvailable s 1 < 0)
    (moved : B ≠ [] ∨ ¬ (s.io.bread 1 = false ∨ s.io.bread 2 = false)) : ¬ Unseen s pos := by
  intro h
  cases h with
  | unread hread => exact read hread
  | refused hspace => exact space hspace
  | ends A' B' hes hne hpos =>
    rw [shape.entries_eq] at hes
    have hdry := congrArg List.length (cut.dry s.disk hes hne hpos 1)
    rw [gather, if_neg (by omega), List.length_append, slice_length, List.length_nil] at hdry
    omega
  | unmoved A' e' hes hlast hbad =>
    rw [shape.entries_eq] at hes
    rcases moved with hB | hgood
    · obtain ⟨C, c, rfl⟩ := List.eq_nil_or_concat B |>.resolve_left hB
      have hA' : A ++ e :: C = A' := by
        have hinit := congrArg List.dropLast hes
        rw [List.concat_eq_append, ← List.cons_append, ← List.append_assoc, List.dropLast_concat,
          List.dropLast_concat] at hinit
        exact hinit
      have hoff := cut.offset rfl
      rw [← hA', total_append, total_cons] at hlast
      rcases hlast with hnil | hlt
      · simp at hnil
      · omega
    · exact hgood hbad

/-- The file of a run: no entry is empty. -/
structure FullInv (s : Ctx) (es : List Word) : Prop where
  shape : Shape s es
  held : Held s es
  size : s.node.iSize = total es
  positive : ∀ e ∈ es, 0 < getBlockSize e

theorem FullInv.sameReads_iff_empty (h : FullInv s []) (addr : Addressable s.sbi 1)
    (zero : startPos s fFlags pos = 0) :
    SameReads s (ouichefsLightWrite s fFlags [] pos).ctx ↔ Unseen s 0 := by
  have hcall := ouichefsLightWrite_nothing s fFlags pos (by rw [zero]; decide)
  rw [zero] at hcall
  by_cases hread : s.io.bread 0 = false
  · rw [if_pos hread] at hcall
    rw [hcall]
    exact iff_of_true (sameReads_of_kept h.shape rfl rfl) (.unread hread)
  rw [if_neg hread] at hcall
  rw [hcall]
  have shape : Shape s.popBread [] := h.shape.congr (fun _ _ => rfl) rfl rfl
  have held : Held s.popBread [] := ⟨h.held.ok, h.held.data, h.held.index⟩
  by_cases hspace : spaceAvailable s 1 < 0
  · obtain ⟨hdisk, hnode⟩ := lightWriteBody_nothing_full shape h.size hspace
    exact iff_of_true (sameReads_of_kept h.shape hdisk hnode) (.refused hspace)
  obtain ⟨x, hx, hshape⟩ := lightWriteBody_nothing_new shape held h.size addr hspace
  refine iff_of_false (reads_differ_opened h.shape hshape hx) ?_
  intro hun
  cases hun with
  | unread hr => exact hread hr
  | refused hs => exact hspace hs
  | ends A B hes hne _ =>
    rw [h.shape.entries_eq] at hes
    exact hne (List.append_eq_nil_iff.mp hes.symm).1
  | unmoved A e hes _ _ =>
    rw [h.shape.entries_eq] at hes
    simp at hes

theorem FullInv.sameReads_iff_cursor {A B : List Word} {e : Word} {p : Nat}
    (h : FullInv s (A ++ e :: B)) (cut : Cut (A ++ e :: B) (startPos s fFlags pos) (e :: B) p)
    (le : startPos s fFlags pos ≤ total (A ++ e :: B))
    (found : findBlockPos (startPos s fFlags pos) s.blocks (i32 ((s.node.iBlocks : Int) - 1)) =
      some (A.length, (p : Int)))
    (addr : p < getBlockSize e → Addressable s.sbi 1) :
    SameReads s (ouichefsLightWrite s fFlags [] pos).ctx ↔ Unseen s (startPos s fFlags pos) := by
  have hle := total_le (A ++ e :: B)
  have hl := h.shape.length_le
  have hcall := ouichefsLightWrite_nothing s fFlags pos (by unfold maxFilesize; omega)
  have hoff := cut.offset rfl
  obtain ⟨pos', hpos⟩ : ∃ pos', pos' = startPos s fFlags pos := ⟨_, rfl⟩
  rw [← hpos] at cut le found hcall hoff ⊢
  by_cases hread : s.io.bread 0 = false
  · rw [if_pos hread] at hcall
    rw [hcall]
    exact iff_of_true (sameReads_of_kept h.shape rfl rfl) (.unread hread)
  rw [if_neg hread] at hcall
  rw [hcall]
  have shape : Shape s.popBread (A ++ e :: B) := h.shape.congr (fun _ _ => rfl) rfl rfl
  have held : Held s.popBread (A ++ e :: B) := ⟨h.held.ok, h.held.data, h.held.index⟩
  rcases Nat.lt_or_eq_of_le (cut.le_head e rfl) with hlt | hend
  · by_cases hspace : spaceAvailable s 1 < 0
    · obtain ⟨hdisk, hnode⟩ :=
        lightWriteBody_nothing_refused shape h.size held le found hlt hspace
      exact iff_of_true (sameReads_of_kept h.shape hdisk hnode) (.refused hspace)
    rcases lightWriteBody_nothing_inside shape h.size held le found hlt (addr hlt) hspace with
      ⟨hbad, x, hx, hshape, hbytes⟩ | ⟨hgood, d, x, hd, hshape⟩
    · by_cases hB : B = []
      · subst hB
        refine iff_of_true ?_ (.unmoved A e h.shape.entries_eq ?_ hbad)
        · refine sameReads_of_trailing h.shape ?_ (by simp) hx hbytes
          simpa using hshape
        · exact (cut.first rfl).imp_right fun hp => by omega
      · exact iff_of_false (reads_differ_blocked h.shape hshape h.positive hB hx)
          (Unseen.not_inside h.shape cut hlt hread hspace (Or.inl hB))
    · exact iff_of_false (reads_differ_split h.shape hshape found hoff hlt hd)
        (Unseen.not_inside h.shape cut hlt hread hspace (Or.inr hgood))
  · obtain ⟨hdisk, hnode⟩ := lightWriteBody_nothing_end shape h.size held le found hend
    refine iff_of_true (sameReads_of_kept h.shape hdisk hnode) (.ends (A ++ [e]) B ?_ (by simp) ?_)
    · rw [h.shape.entries_eq]
      simp
    · rw [total_append, total_cons, total_nil]
      omega

/-- A call without data is not seen by any later read if and only if it is one of
those listed. -/
theorem FullInv.sameReads_iff (h : FullInv s es) (le : startPos s fFlags pos ≤ s.node.iSize)
    (addr : Addressable s.sbi (neededBlocks s 0 (startPos s fFlags pos))) :
    SameReads s (ouichefsLightWrite s fFlags [] pos).ctx ↔ Unseen s (startPos s fFlags pos) := by
  have hle := h.size ▸ le
  obtain ⟨A, L, p, hsplit, hcut, hfound⟩ := findBlockPos_cut h.shape hle
  cases L with
  | nil =>
    obtain ⟨rfl, hzero⟩ := hcut.nowhere rfl
    rw [hzero, neededBlocks_empty h.shape, dataBlocks_none (by omega)] at addr
    rw [hzero]
    exact h.sameReads_iff_empty addr hzero
  | cons e B =>
    subst hsplit
    apply h.sameReads_iff_cursor hcut hle hfound
    intro hlt
    rw [neededBlocks_at (Nat.not_lt.mpr le) hfound h.shape.blocks_at] at addr
    exact addr.mono (by rw [if_pos (Or.inr hlt)]; omega)

end

/-- Runs of complete writes, none of them empty, at any position. The blocks they take
have numbers that an entry can record. -/
inductive FullRun (s₀ : Ctx) : Ctx → Prop
  | start : FullRun s₀ s₀
  | write (s : Ctx) (io : Io) (fFlags pos : Nat) (data : List Byte) :
      FullRun s₀ s → Addressable s.sbi (neededBlocks s data.length (startPos s fFlags pos)) →
      data ≠ [] → (ouichefsLightWrite { s with io := io } fFlags data pos).ret = data.length →
      FullRun s₀ (ouichefsLightWrite { s with io := io } fFlags data pos).ctx

theorem FullInv.withIo {s : Ctx} {es : List Word} (h : FullInv s es) (io : Io) :
    FullInv { s with io := io } es :=
  ⟨h.shape.congr (fun _ _ => rfl) rfl rfl, ⟨h.held.ok, h.held.data, h.held.index⟩, h.size,
    h.positive⟩

theorem fullRun_inv {s₀ s : Ctx} (new : NewFile s₀) (run : FullRun s₀ s) : ∃ es, FullInv s es := by
  induction run with
  | start => exact ⟨[], new.shape, new.held, new.iSize, by simp⟩
  | write s io fFlags pos data _ fits nonempty full ih =>
    obtain ⟨es, hinv⟩ := ih
    have hio := hinv.withIo io
    obtain ⟨fresh, es', g, m, w⟩ := ouichefsLightWrite_spec hio.shape hio.held
      hio.size fFlags fits
    have hm : m = data.length := by
      have := w.ret (by omega)
      omega
    exact ⟨es', w.shape, w.held, w.size, w.positive hm nonempty hinv.positive⟩

/-- In every file that complete writes lead to, a write of no bytes at or before the
end is not seen by any later read if and only if it stops early, the position is the
end of a block, or the cursor is in the last block and its bytes cannot be moved. -/
theorem empty_write_unseen_iff (s₀ s : Ctx) (new : NewFile s₀) (run : FullRun s₀ s) (io : Io)
    (fFlags pos : Nat) (le : startPos s fFlags pos ≤ s.node.iSize)
    (fits : Addressable s.sbi (neededBlocks s 0 (startPos s fFlags pos))) :
    SameReads s (ouichefsLightWrite { s with io := io } fFlags [] pos).ctx ↔
      Unseen { s with io := io } (startPos s fFlags pos) := by
  obtain ⟨es, hinv⟩ := fullRun_inv new run
  exact (hinv.withIo io).sameReads_iff le fits

/-- A new file into which two bytes have been written. -/
def twoByteCtx : Ctx := (ouichefsLightWrite { freshCtx with io := calmIo } 1 [66, 67] 0).ctx

theorem twoByteCtx_run : FullRun freshCtx twoByteCtx :=
  .write freshCtx calmIo 1 0 [66, 67] .start (addressable_of_small (by decide) _) (by decide)
    (by decide +kernel)

/-- At the end of the file a write of no bytes does no harm. -/
theorem empty_write_unseen_at_end : FullRun freshCtx twoByteCtx ∧ twoByteCtx.node.iSize = 2 ∧
    SameReads twoByteCtx (ouichefsLightWrite { twoByteCtx with io := calmIo } 1 [] 2).ctx := by
  have hsmall : twoByteCtx.sbi.nrBlocks ≤ 524288 := by decide +kernel
  refine ⟨twoByteCtx_run, by decide +kernel, (empty_write_unseen_iff freshCtx twoByteCtx freshCtx_new
    twoByteCtx_run calmIo 1 2 (by decide +kernel) (addressable_of_small hsmall _)).mpr ?_⟩
  exact .ends twoByteCtx.entries [] (by simp; rfl) (by decide +kernel) (by decide +kernel)

/-- At the start of the file it hides the content. -/
theorem empty_write_hides_content : NewFile freshCtx ∧ FullRun freshCtx twoByteCtx ∧
    (ouichefsLightWrite { twoByteCtx with io := calmIo } 1 [] 0).ret = 0 ∧
    (ouichefsLightRead (fun _ => 0) { twoByteCtx with io := calmIo } 0 2 0).ret = 2 ∧
    (ouichefsLightRead (fun _ => 0)
      { (ouichefsLightWrite { twoByteCtx with io := calmIo } 1 [] 0).ctx with io := calmIo }
      0 2 0).ret = 0 ∧
    ¬ SameReads twoByteCtx (ouichefsLightWrite { twoByteCtx with io := calmIo } 1 [] 0).ctx := by
  have hbefore : (ouichefsLightRead (fun _ => 0) { twoByteCtx with io := calmIo } 0 2 0).ret = 2 := by
    decide +kernel
  have hafter : (ouichefsLightRead (fun _ => 0)
      { (ouichefsLightWrite { twoByteCtx with io := calmIo } 1 [] 0).ctx with io := calmIo }
      0 2 0).ret = 0 := by
    decide +kernel
  refine ⟨freshCtx_new, twoByteCtx_run, by decide +kernel, hbefore, hafter, ?_⟩
  intro h
  have hsame := (h (fun _ => 0) calmIo 0 2 0).1
  rw [hbefore, hafter] at hsame
  cases hsame

end EmptyWrite
