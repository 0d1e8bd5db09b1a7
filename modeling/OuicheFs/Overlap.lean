import OuicheFs.Search

/-!
# Blocks that are drained in place

A defragmentation drains every block into what is left of the block in which its
first byte ends up, and moves the rest of it up within its own buffer. The two
ranges of that move overlap if less than half of the block has been drained, and
`memcpy` then promises nothing about the bytes that are moved.
-/
namespace Overlap

open ByteBuffer IndexEntry FileContext Layout Search

/-- `n` bytes that come behind `pos` others are at most twice as many as are missing
to a whole number of blocks. -/
def Fits (pos n : Nat) : Prop := n ≤ 2 * (blockSize - pos % blockSize)

instance (pos n : Nat) : Decidable (Fits pos n) := inferInstanceAs (Decidable (_ ≤ _))

theorem fits_of_aligned {pos n : Nat} (aligned : pos % blockSize = 0) (le : n ≤ blockSize) :
    Fits pos n := by
  rw [Fits, aligned]
  omega

/-- The sizes of the entries that hold a byte. -/
def held (L : List Word) : List Nat := (L.map getBlockSize).filter (· ≠ 0)

theorem held_cons_zero {z : Word} (R : List Word) (h : getBlockSize z = 0) :
    held (z :: R) = held R := by
  simp [held, h]

theorem held_cons_pos {z : Word} (R : List Word) (h : getBlockSize z ≠ 0) :
    held (z :: R) = getBlockSize z :: held R := by
  simp [held, h]

theorem held_append (L R : List Word) : held (L ++ R) = held L ++ held R := by
  simp [held]

theorem held_append_zero {z : Word} (R : List Word) (h : getBlockSize z = 0) :
    held (R ++ [z]) = held R := by
  simp [held, h]

theorem held_eq_nil {R : List Word} : held R = [] ↔ total R = 0 := by
  constructor
  · intro h
    exact total_of_sizes_zero (by simpa [held] using h)
  · intro h
    simpa [held] using sizes_zero_of_total h

theorem sum_held (L : List Word) : (held L).sum = total L := by
  induction L with
  | nil => rfl
  | cons z L ih =>
    by_cases hz : getBlockSize z = 0
    · rw [held_cons_zero L hz, ih, total_cons, hz, Nat.zero_add]
    · rw [held_cons_pos L hz, List.sum_cons, ih, total_cons]

theorem total_of_full {F : List Word} (full : ∀ f ∈ F, getBlockSize f = 4096) : total F % 4096 = 0 := by
  induction F with
  | nil => rfl
  | cons f F ih =>
    have hF := ih fun g hg => full g (List.mem_cons_of_mem f hg)
    rw [total_cons, full f List.mem_cons_self]
    omega

/-- Some bytes of the drained block `n` behind the blocks `pre` are moved over others that
are still to be moved; the blocks `rest` are not drained yet. -/
def Spoilt (ns rest : List Nat) (P : Nat) : Prop :=
  ∃ pre n post, ns = pre ++ n :: (post ++ rest) ∧ ¬ Fits pre.sum n ∧
    pre.sum + (blockSize - pre.sum % blockSize) ≤ P ∧ P < pre.sum + n

theorem Spoilt.lt {pre rest : List Nat} {P : Nat} (h : Spoilt (pre ++ rest) rest P) :
    P < pre.sum := by
  obtain ⟨front, n, post, hns, _, _, hlt⟩ := h
  have hpre : pre = front ++ n :: post := by
    refine List.append_cancel_right (?_ : pre ++ rest = (front ++ n :: post) ++ rest)
    rw [hns]
    simp
  rw [hpre, List.sum_append, List.sum_cons]
  omega

/-- Draining one more block spoils nothing else than bytes of this block. -/
theorem spoilt_cons {pre rest : List Nat} {n P : Nat} :
    Spoilt (pre ++ n :: rest) rest P ↔ Spoilt (pre ++ n :: rest) (n :: rest) P ∨
      (¬ Fits pre.sum n ∧ pre.sum + (blockSize - pre.sum % blockSize) ≤ P ∧ P < pre.sum + n) := by
  constructor
  · rintro ⟨front, m, post, hns, hfits, hle, hlt⟩
    rcases List.eq_nil_or_concat post with rfl | ⟨post, k, rfl⟩
    · -- the block drained last is `n` itself
      rw [List.nil_append] at hns
      obtain ⟨hpre, htail⟩ := List.append_inj' hns rfl
      cases htail
      rw [hpre]
      exact Or.inr ⟨hfits, hle, hlt⟩
    · have hsplit : pre ++ n :: rest = (front ++ m :: post) ++ k :: rest := by
        rw [hns]
        simp
      obtain ⟨_, htail⟩ := List.append_inj' hsplit (by simp)
      cases htail
      exact Or.inl ⟨front, m, post, by rw [hsplit]; simp, hfits, hle, hlt⟩
  · rintro (⟨front, m, post, hns, hfits, hle, hlt⟩ | ⟨hfits, hle, hlt⟩)
    · exact ⟨front, m, post ++ [n], by rw [hns]; simp, hfits, hle, hlt⟩
    · exact ⟨pre, n, [], rfl, hfits, hle, hlt⟩

/-- Nothing is spoilt before the first block is drained. -/
theorem not_spoilt_all (ns : List Nat) (P : Nat) : ¬ Spoilt ns ns P := by
  intro h
  have hlt : P < ([] : List Nat).sum := Spoilt.lt h
  exact absurd hlt (Nat.not_lt_zero P)

/-- Without an overlap nothing more is spoilt. -/
theorem spoilt_cons_of_fits {pre rest : List Nat} {n : Nat} (fits : Fits pre.sum n) (P : Nat) :
    Spoilt (pre ++ n :: rest) rest P ↔ Spoilt (pre ++ n :: rest) (n :: rest) P := by
  rw [spoilt_cons]
  exact or_iff_left fun h => h.1 fits

/-- The bytes `new` are the bytes `old` except at the spoilt positions, where they are what
`memcpy` has made of them. -/
structure Blurred (io : Io) (ns rest : List Nat) (old new : List Byte) : Prop where
  same : ∀ P, ¬ Spoilt ns rest P → new[P]? = old[P]?
  smeared : ∀ P, Spoilt ns rest P → ∀ a, io.Smears a → new[P]? = some a

section

variable {io : Io} {ns pre rest : List Nat} {n : Nat} {old new : List Byte}

theorem Blurred.refl (io : Io) (ns : List Nat) (old : List Byte) : Blurred io ns ns old old :=
  ⟨fun _ _ => rfl, fun P h => absurd h (not_spoilt_all ns P)⟩

theorem Blurred.eq (b : Blurred io ns rest old new) (none_ : ∀ P, ¬ Spoilt ns rest P) :
    new = old :=
  List.ext_getElem? fun P => b.same P (none_ P)

theorem Blurred.skip (b : Blurred io (pre ++ n :: rest) (n :: rest) old new)
    (fits : Fits pre.sum n) : Blurred io (pre ++ n :: rest) rest old new := by
  constructor
  · intro P h
    exact b.same P (mt (spoilt_cons_of_fits fits P).mpr h)
  · intro P h
    exact b.smeared P ((spoilt_cons_of_fits fits P).mp h)

/-- The part `Y` of a list is replaced by another one. -/
theorem getElem?_splice {α : Type} (X Z : List α) {Y Y' : List α} (length : Y'.length = Y.length)
    {P : Nat} (outside : P < X.length ∨ X.length + Y.length ≤ P) :
    (X ++ (Y' ++ Z))[P]? = (X ++ (Y ++ Z))[P]? := by
  rcases outside with h | h
  · rw [List.getElem?_append_left h, List.getElem?_append_left h]
  · rw [List.getElem?_append_right (by omega), List.getElem?_append_right (by omega),
      List.getElem?_append_right (by omega), List.getElem?_append_right (by omega), length]

/-- One more block is drained, with overlapping ranges: the bytes `Y` behind those that
were copied out have been moved. -/
theorem Blurred.drain {X Y Y' Z : List Byte}
    (b : Blurred io (pre ++ n :: rest) (n :: rest) old (X ++ (Y ++ Z)))
    (unfit : ¬ Fits pre.sum n) (length : Y'.length = Y.length)
    (start : X.length = pre.sum + (blockSize - pre.sum % blockSize))
    (stop : X.length + Y.length = pre.sum + n)
    (smeared : ∀ a, io.Smears a → Y' = List.replicate Y.length a) :
    Blurred io (pre ++ n :: rest) rest old (X ++ (Y' ++ Z)) := by
  constructor
  · intro P h
    rw [spoilt_cons, not_or] at h
    rw [getElem?_splice X Z length]
    · exact b.same P h.1
    · have hout := h.2
      rw [not_and, not_and] at hout
      rcases Nat.lt_or_ge P X.length with hlt | hge
      · exact Or.inl hlt
      · have := hout unfit (start ▸ hge)
        omega
  · intro P h a smears
    rcases spoilt_cons.mp h with hbefore | ⟨_, hle, hlt⟩
    · have hlt := hbefore.lt
      rw [getElem?_splice X Z length (Or.inl (by omega))]
      exact b.smeared P hbefore a smears
    · rw [smeared a smears, List.getElem?_append_right (by omega),
        List.getElem?_append_left (by rw [List.length_replicate]; omega),
        List.getElem?_replicate, if_pos (by omega)]

end

/-! Which blocks of a file are in the way of that. -/

theorem held_split {L : List Word} {pre post : List Nat} {n : Nat}
    (h : held L = pre ++ n :: post) : ∃ k, k < L.length ∧ pre = held (L.take k) ∧
      n = getBlockSize (L[k]?.getD 0) ∧ post = held (L.drop (k + 1)) := by
  induction L generalizing pre with
  | nil => simp [held] at h
  | cons z L ih =>
    by_cases hz : getBlockSize z = 0
    · rw [held_cons_zero L hz] at h
      obtain ⟨k, hk, hpre, hn, hpost⟩ := ih h
      refine ⟨k + 1, by simpa using hk, ?_, hn, hpost⟩
      rw [List.take_succ_cons, held_cons_zero _ hz, hpre]
    · rw [held_cons_pos L hz] at h
      cases pre with
      | nil =>
        obtain ⟨hn, hpost⟩ := List.cons.inj h
        exact ⟨0, by simp, rfl, hn.symm, hpost.symm⟩
      | cons m pre =>
        obtain ⟨hm, htail⟩ := List.cons.inj h
        obtain ⟨k, hk, hpre, hn, hpost⟩ := ih htail
        refine ⟨k + 1, by simpa using hk, ?_, hn, hpost⟩
        rw [List.take_succ_cons, held_cons_pos _ hz, hpre, hm]

theorem held_at {L : List Word} {k : Nat} (lt : k < L.length)
    (pos : getBlockSize (L[k]?.getD 0) ≠ 0) :
    held L = held (L.take k) ++ getBlockSize (L[k]?.getD 0) :: held (L.drop (k + 1)) := by
  have hget : L[k]?.getD 0 = L[k] := by simp [lt]
  rw [hget] at pos ⊢
  calc held L = held (L.take k ++ L.drop k) := by rw [List.take_append_drop]
    _ = held (L.take k) ++ held (L[k] :: L.drop (k + 1)) := by
        rw [held_append, List.drop_eq_getElem_cons lt]
    _ = _ := by rw [held_cons_pos _ pos]

/-- No byte is spoilt while the blocks that are left meet `Q` exactly if every block fits
behind which such blocks are left. -/
theorem unspoilt_iff (L : List Word) (Q : List Nat → Prop) :
    (∀ rest P, Q rest → ¬ Spoilt (held L) rest P) ↔
      ∀ k, k < L.length → (∃ post rest, held (L.drop (k + 1)) = post ++ rest ∧ Q rest) →
        Fits (total (L.take k)) (getBlockSize (L[k]?.getD 0)) := by
  constructor
  · rintro h k hk ⟨post, rest, hdrop, hq⟩
    by_contra hfits
    have hpos : getBlockSize (L[k]?.getD 0) ≠ 0 := by
      intro hzero
      rw [hzero] at hfits
      exact hfits (Nat.zero_le _)
    have hsplit := held_at hk hpos
    rw [hdrop] at hsplit
    refine h rest _ hq ⟨_, _, post, hsplit, by rwa [sum_held], Nat.le_refl _, ?_⟩
    rw [Fits] at hfits
    rw [sum_held]
    omega
  · rintro h rest P hq ⟨pre, n, post, hsplit, hfits, _, _⟩
    obtain ⟨k, hk, hpre, hn, hpost⟩ := held_split hsplit
    refine hfits ?_
    rw [hpre, sum_held, hn]
    exact h k hk ⟨post, rest, hpost.symm, hq⟩

/-- Nothing is spoilt in a file that has full blocks in front of its last one. -/
theorem unspoilt_of_full {L : List Word} (full : ∀ f ∈ L.dropLast, getBlockSize f = 4096) (P : Nat) :
    ¬ Spoilt (held L) [] P := by
  refine (unspoilt_iff L (· = [])).mpr (fun k hk _ => ?_) [] P rfl
  refine fits_of_aligned (total_of_full fun f hf => full f ?_) (getBlockSize_le _)
  rw [List.dropLast_eq_take]
  exact List.mem_of_mem_take (i := k) (by rwa [List.take_take, Nat.min_eq_left (by omega)])

theorem total_take_entries {s : Ctx} {k : Nat} (lt : k < s.node.iBlocks - 1) :
    total (s.entries.take k) = sizesBelow s.blocks k := by
  rw [Ctx.entries, ← List.map_take, List.take_range, Nat.min_eq_left (by omega)]
  rfl

theorem entries_get {s : Ctx} {k : Nat} (lt : k < s.node.iBlocks - 1) :
    s.entries[k]?.getD 0 = s.blocks k := by
  simp [Ctx.entries, lt]

/-- Every block holds at most twice the bytes that the ones in front of it leave in
their last block. -/
def Drainable (s : Ctx) : Prop :=
  ∀ k, k < s.node.iBlocks - 1 →
    getBlockSize (s.blocks k) ≤ 2 * (4096 - sizesBelow s.blocks k % 4096)

instance (s : Ctx) : Decidable (Drainable s) := inferInstanceAs (Decidable (∀ k, k < _ → _ ≤ _))

/-- Every entry of the list fits behind those in front of it and `pos` bytes more. -/
def AllFit : Nat → List Nat → Prop
  | _, [] => True
  | pos, n :: ns => Fits pos n ∧ AllFit (pos + n) ns

/-- Entries without a byte do not matter. -/
theorem allFit_held (L : List Word) :
    ∀ pos, AllFit pos (held L) ↔ AllFit pos (L.map getBlockSize) := by
  induction L with
  | nil => exact fun _ => Iff.rfl
  | cons z L ih =>
    intro pos
    by_cases hz : getBlockSize z = 0
    · rw [held_cons_zero L hz, ih pos, List.map_cons, hz]
      simp [AllFit, Fits]
    · rw [held_cons_pos L hz, List.map_cons, AllFit, AllFit, ih]

theorem allFit_iff (L : List Word) :
    ∀ pos, AllFit pos (L.map getBlockSize) ↔
      ∀ k, k < L.length → Fits (pos + total (L.take k)) (getBlockSize (L[k]?.getD 0)) := by
  induction L with
  | nil => simp [AllFit]
  | cons z L ih =>
    intro pos
    rw [List.map_cons, AllFit, ih]
    constructor
    · rintro ⟨hz, hL⟩ k hk
      cases k with
      | zero => simpa using hz
      | succ k =>
        have := hL k (by simpa using hk)
        simpa [Nat.add_assoc] using this
    · intro h
      constructor
      · simpa using h 0 (by simp)
      · intro k hk
        have := h (k + 1) (by simpa using hk)
        simpa [Nat.add_assoc] using this

theorem allFit_append (ns ns' : List Nat) :
    ∀ pos, AllFit pos (ns ++ ns') ↔ AllFit pos ns ∧ AllFit (pos + ns.sum) ns' := by
  induction ns with
  | nil => simp [AllFit]
  | cons n ns ih =>
    intro pos
    rw [List.cons_append, AllFit, AllFit, ih, List.sum_cons, and_assoc, Nat.add_assoc]

theorem allFit_full {ns : List Nat} (full : ∀ n ∈ ns.dropLast, n = 4096)
    (le : ∀ n ∈ ns, n ≤ 4096) : ∀ {pos}, pos % 4096 = 0 → AllFit pos ns := by
  induction ns with
  | nil => exact fun _ => trivial
  | cons n ns ih =>
    intro pos aligned
    refine ⟨fits_of_aligned aligned (le n List.mem_cons_self), ?_⟩
    cases ns with
    | nil => trivial
    | cons m ns =>
      have hn : n = 4096 := full n List.mem_cons_self
      refine ih (fun k hk => full k ?_) (fun k hk => le k (List.mem_cons_of_mem n hk)) (by omega)
      rw [List.dropLast_cons₂]
      exact List.mem_cons_of_mem n hk

theorem drainable_iff {s : Ctx} {es : List Word} (shape : Shape s es) :
    Drainable s ↔ AllFit 0 (held es) := by
  rw [allFit_held, allFit_iff, ← shape.entries_eq, entries_length]
  refine forall₂_congr fun k hk => ?_
  rw [total_take_entries hk, entries_get hk, Nat.zero_add]
  exact Iff.rfl

/-- In front of the blocks `rest`, which are not drained yet, there are only full blocks
and the one that is being filled. -/
def Filled (ns rest ns' : List Nat) : Prop :=
  ∃ pre full, ns = pre ++ rest ∧ ns' = full ++ rest ∧ full.sum = pre.sum ∧
    ∀ n ∈ full.dropLast, n = 4096

theorem AllFit.filled {ns rest ns' : List Nat} (h : AllFit 0 ns) (f : Filled ns rest ns')
    (le : ∀ n ∈ ns', n ≤ 4096) : AllFit 0 ns' := by
  obtain ⟨pre, front, rfl, rfl, hsum, hfull⟩ := f
  rw [allFit_append, Nat.zero_add] at h ⊢
  refine ⟨allFit_full hfull (fun n hn => le n (List.mem_append_left rest hn)) rfl, ?_⟩
  rw [hsum]
  exact h.2

theorem held_le {L : List Word} : ∀ n ∈ held L, n ≤ 4096 := by
  intro n hn
  obtain ⟨e, _, rfl⟩ := List.mem_map.mp (List.mem_of_mem_filter hn)
  exact getBlockSize_le e

theorem Drainable.unspoilt {s : Ctx} (h : Drainable s) (rest : List Nat) (P : Nat) :
    ¬ Spoilt (held s.entries) rest P := by
  refine (unspoilt_iff s.entries fun _ => True).mpr (fun k hk _ => ?_) rest P trivial
  rw [entries_length] at hk
  rw [total_take_entries hk, entries_get hk]
  exact h k hk

theorem drainable_iff_unspoilt (s : Ctx) :
    Drainable s ↔ ∀ P, ¬ Spoilt (held s.entries) [] P := by
  refine ⟨fun h => h.unspoilt [], fun hnone k hk => ?_⟩
  have hfits := (unspoilt_iff s.entries (· = [])).mp (fun rest P hrest => hrest ▸ hnone P) k
    (by rwa [entries_length]) ⟨_, [], (List.append_nil _).symm, rfl⟩
  rwa [total_take_entries hk, entries_get hk] at hfits

end Overlap
