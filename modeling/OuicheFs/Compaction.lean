import OuicheFs.Pour
import OuicheFs.Defrag
import OuicheFs.Overlap

/-!
# Defragmentation keeps the content

The first pass keeps a run of full blocks, a block that is being filled and a
rest; every iteration either rotates an empty block out of the front of the
rest, drains the front block into the one being filled, or moves on. A byte of
the content changes only where the ranges of a `memcpy` overlap, and a weight of
the rest goes down. The second pass frees the blocks that hold nothing.
-/
namespace Compaction

open Bits CInt ByteBuffer IndexEntry Allocator FileContext Layout OuicheWrite OuicheDefrag
  Reserve Pour Loop Overlap

theorem bubbleUpLoop_spec (z : Word) (R : List Word) :
    ∀ (bli : Nat) (s : Ctx),
      (∀ i, i ≤ R.length → s.blocks (bli + i) = (z :: R)[i]?.getD 0) →
      (∀ i, i ≤ R.length →
        (bubbleUpLoop R.length bli s).blocks (bli + i) = (R ++ [z])[i]?.getD 0) ∧
      (∀ i, i < bli ∨ bli + R.length < i →
        (bubbleUpLoop R.length bli s).blocks i = s.blocks i) ∧
      IndexOnly s (bubbleUpLoop R.length bli s) ∧
      (bubbleUpLoop R.length bli s).sbi = s.sbi ∧
      (bubbleUpLoop R.length bli s).node = s.node ∧
      (bubbleUpLoop R.length bli s).io = s.io := by
  induction R with
  | nil =>
    intro bli s h
    refine ⟨?_, fun _ _ => rfl, IndexOnly.refl s, rfl, rfl, rfl⟩
    intro i hi
    have hz : i = 0 := by simpa using hi
    subst hz
    simpa [bubbleUpLoop] using h 0 (by simp)
  | cons y R ih =>
    intro bli s h
    have hz : s.blocks bli = z := by simpa using h 0 (by simp)
    have hy : s.blocks (bli + 1) = y := by simpa using h 1 (by simp)
    obtain ⟨t, ht⟩ : ∃ t, t = (s.setBlocks bli y).setBlocks (bli + 1) z := ⟨_, rfl⟩
    have hrun : bubbleUpLoop (y :: R).length bli s = bubbleUpLoop R.length (bli + 1) t := by
      rw [List.length_cons, bubbleUpLoop, ht]
      simp only [hz, hy]
    have hother : ∀ i, i ≠ bli → i ≠ bli + 1 → t.blocks i = s.blocks i := by
      intro i h0 h1
      rw [ht, blocks_setBlocks_of_ne _ _ h1, blocks_setBlocks_of_ne _ _ h0]
    have hfirst : t.blocks bli = y := by
      rw [ht, blocks_setBlocks_of_ne _ _ (by omega), blocks_setBlocks_self]
    obtain ⟨hin, hout, hframe, hsbi, hnode, hio⟩ := ih (bli + 1) t (by
      intro i hi
      cases i with
      | zero =>
        rw [ht]
        simp
      | succ i =>
        rw [hother _ (by omega) (by omega), show bli + 1 + (i + 1) = bli + (i + 2) by omega,
          h (i + 2) (by simp only [List.length_cons]; omega)]
        rfl)
    rw [hrun]
    refine ⟨?_, ?_, ?_, ?_, ?_, ?_⟩
    · intro i hi
      cases i with
      | zero =>
        have := hout bli (by omega)
        simpa [hfirst] using this
      | succ i =>
        have := hin i (by simpa using hi)
        rw [show bli + (i + 1) = bli + 1 + i by omega, this]
        rfl
    · intro i hi
      simp only [List.length_cons] at hi
      rw [hout i (by omega), hother i (by omega) (by omega)]
    · have hst : IndexOnly s t := by
        rw [ht]
        exact (setBlocks_indexOnly _ _ _).trans (setBlocks_indexOnly _ _ _)
      exact hst.trans hframe
    · rw [hsbi, ht]
      rfl
    · rw [hnode, ht]
      rfl
    · rw [hio, ht]
      rfl

/-- Rotating the empty entry behind `A` to the end. -/
theorem bubbleUpBlock_spec {s : Ctx} {A R : List Word} {z : Word} (shape : Shape s (A ++ z :: R))
    (empty : getBlockSize z = 0) :
    let u := bubbleUpBlock s A.length (i32 ((s.node.iBlocks : Int) - 1))
    Shape u (A ++ (R ++ [z])) ∧ IndexOnly s u ∧ u.sbi = s.sbi ∧ u.node = s.node ∧
      u.io = s.io ∧ bytesOf u.disk (A ++ (R ++ [z])) = bytesOf s.disk (A ++ z :: R) := by
  intro u
  have hl := shape.length_le
  simp only [List.length_append, List.length_cons] at hl
  have hcount : (i32 ((s.node.iBlocks : Int) - 1) - 1 - A.length).toNat = R.length := by
    rw [shape.nbBlocks]
    simp only [List.length_append, List.length_cons]
    omega
  obtain ⟨hin, hout, hframe, hsbi, hnode, hio⟩ := bubbleUpLoop_spec z R A.length s (by
    intro i hi
    rw [shape.slots _ (by omega), List.getElem?_append_right (by omega), Nat.add_sub_cancel_left])
  have hu : u = bubbleUpLoop R.length A.length s := by
    rw [← hcount]
    rfl
  rw [← hu] at hin hout hframe hsbi hnode hio
  have hperm : (numbers (A ++ (R ++ [z]))).Perm (numbers (A ++ z :: R)) := by
    simp only [numbers_append, numbers_cons, numbers_nil]
    exact List.Perm.append_left _ (List.perm_append_singleton _ _)
  refine ⟨shape.rearrange ?_ hperm (by rw [hnode]) (by rw [hnode]), hframe, hsbi, hnode, hio, ?_⟩
  · intro i hi
    rcases Nat.lt_or_ge i A.length with hA | hA
    · rw [hout i (by omega), shape.slots i hi, List.getElem?_append_left hA,
        List.getElem?_append_left hA]
    rw [List.getElem?_append_right hA]
    rcases Nat.lt_or_ge (A.length + R.length) i with hR | hR
    · rw [hout i (by omega), shape.slots i hi, List.getElem?_append_right hA,
        List.getElem?_eq_none (by simp only [List.length_cons]; omega),
        List.getElem?_eq_none (by simp; omega)]
    · have := hin (i - A.length) (by omega)
      rwa [Nat.add_sub_cancel' hA] at this
  · have hkeep : bytesOf u.disk (A ++ (R ++ [z])) = bytesOf s.disk (A ++ (R ++ [z])) := by
      apply bytesOf_congr
      intro f hf
      apply hframe.disk
      apply shape.ne_index
      simp only [List.mem_append, List.mem_cons, List.not_mem_nil, or_false] at hf ⊢
      exact hf.imp_right Or.symm
    have hz : entryBytes s.disk z = [] := by simp [entryBytes, empty]
    rw [hkeep]
    simp [hz]

/-- The first `c` bytes of the entry `z` have been appended to the entry `e`. What is
left of `z` is in order if it is at most as much. -/
structure Drained (s u : Ctx) (A : List Word) (e z : Word) (R : List Word) (c : Nat) :
    Prop where
  exchanged : Exchanged s u A e (setBlockSize e ((getBlockSize e + c : Nat) : Int)) [] z
    (setBlockSize z ((getBlockSize z - c : Nat) : Int)) R
  front : entryBytes u.disk (setBlockSize e ((getBlockSize e + c : Nat) : Int)) =
    entryBytes s.disk e ++ (entryBytes s.disk z).take c
  back : getBlockSize z ≤ 2 * c →
    entryBytes u.disk (setBlockSize z ((getBlockSize z - c : Nat) : Int)) =
      (entryBytes s.disk z).drop c
  smeared : ¬ getBlockSize z ≤ 2 * c → ∀ a, s.io.Smears a →
    entryBytes u.disk (setBlockSize z ((getBlockSize z - c : Nat) : Int)) =
      List.replicate (getBlockSize z - c) a

/-- The bytes have gone to the target, the two entries are resized, and `memcpy` has
moved up the rest of the source. -/
structure Shifted (s u : Ctx) (A : List Word) (e z : Word) (c : Nat) : Prop where
  at_e : u.blocks A.length = setBlockSize e ((getBlockSize e + c : Nat) : Int)
  at_z : u.blocks (A.length + 1) = setBlockSize z ((getBlockSize z - c : Nat) : Int)
  blocks : ∀ i, i ≠ A.length → i ≠ A.length + 1 → u.blocks i = s.blocks i
  front : u.disk (getBlockNumber e) = blit (s.disk (getBlockNumber e)) (getBlockSize e) c
    (fun k => s.disk (getBlockNumber z) (0 + k))
  back : u.disk (getBlockNumber z) = fill (blit (s.disk (getBlockNumber z)) 0
    (getBlockSize z - c) (s.copied (getBlockNumber z) 0 (getBlockNumber z) c
      (getBlockSize z - c))) (getBlockSize z - c) c 0
  disk : ∀ b, b ≠ s.node.indexBlock → b ≠ getBlockNumber e → b ≠ getBlockNumber z →
    u.disk b = s.disk b
  sbi : u.sbi = s.sbi
  node : u.node = s.node
  io : u.io = s.popBread.popBread.io

/-- The rest of the source holds what the second `memcpy` has put there. -/
theorem Shifted.rest {s u : Ctx} {A : List Word} {e z : Word} {c : Nat}
    (h : Shifted s u A e z c) (le : c ≤ getBlockSize z) :
    entryBytes u.disk (setBlockSize z ((getBlockSize z - c : Nat) : Int)) =
      slice (s.copied (getBlockNumber z) 0 (getBlockNumber z) c (getBlockSize z - c)) 0
        (getBlockSize z - c) := by
  have hz := getBlockSize_le z
  simp only [entryBytes, getBlockNumber_setBlockSize,
    getBlockSize_setBlockSize_nat z (show getBlockSize z - c ≤ 4096 by omega)]
  rw [h.back]
  apply slice_congr
  intro k hk
  rw [fill, blit_outside _ _ (by omega), blit_inside _ _ (by omega) (by omega), Nat.sub_zero]

theorem Shifted.drained {s u : Ctx} {A R : List Word} {e z : Word} {c : Nat}
    (h : Shifted s u A e z c) (shape : Shape s (A ++ e :: z :: R))
    (fits : getBlockSize e + c ≤ 4096) (le : c ≤ getBlockSize z) : Drained s u A e z R c := by
  have hz := getBlockSize_le z
  constructor
  · refine exchange (by simpa using shape) (by simp) (by simp) h.at_e ?_ ?_ h.disk h.sbi h.node
    · exact h.at_z
    · exact h.blocks
  · have hbytes : entryBytes u.disk (setBlockSize e ((getBlockSize e + c : Nat) : Int)) =
        entryBytes (s.disk.set (getBlockNumber e) (blit (s.disk (getBlockNumber e))
          (getBlockSize e) c (fun k => s.disk (getBlockNumber z) (0 + k))))
          (setBlockSize e ((getBlockSize e + c : Nat) : Int)) := by
      apply entryBytes_congr rfl
      intro k _
      rw [getBlockNumber_setBlockSize, h.front, set_self]
    rw [hbytes, entryBytes_blit_append s.disk e _ fits]
    congr 1
    rw [entryBytes, slice_take _ _ le]
    apply slice_congr
    intro k hk
    rw [blit_inside _ _ (by omega) (by omega), Nat.add_sub_cancel_left]
  · intro hapart
    rw [h.rest le, entryBytes, slice_drop _ _ le]
    apply slice_congr
    intro k hk
    rw [Ctx.copied, if_neg (by omega)]
    congr 1
    omega
  · intro hover a smears
    rw [h.rest le]
    refine List.ext_getElem (by simp) fun k _ _ => ?_
    rw [List.getElem_replicate]
    simp only [slice, List.getElem_map, List.getElem_range]
    unfold Ctx.copied
    rw [if_pos (by omega)]
    exact smears _ _ _ _ _ _

theorem moveShiftBlockContentTo_shifts {s : Ctx} {A R : List Word} {e z : Word} {c : Nat}
    (shape : Shape s (A ++ e :: z :: R)) (hc : c = min (getBlockSize z) (4096 - getBlockSize e))
    (pos : 0 < c) (read : ¬ (s.io.bread 0 = false ∨ s.io.bread 1 = false)) :
    ∃ u, moveShiftBlockContentTo s (A.length + 1) A.length (getBlockSize e) = (u, (c : Int)) ∧
      Shifted s u A e z c := by
  have shape2 : Shape s ((A ++ [e]) ++ z :: R) := by simpa using shape
  have hto : s.blocks A.length = e := shape.blocks_at
  have hfrom : s.blocks (A.length + 1) = z := by simpa using shape2.blocks_at
  have hne : getBlockNumber e ≠ s.node.indexBlock := shape.ne_index (by simp)
  have hnz : getBlockNumber z ≠ s.node.indexBlock := shape.ne_index (by simp)
  have hze : getBlockNumber z ≠ getBlockNumber e := shape.others_ne.2 z (by simp)
  obtain ⟨q, hq⟩ : ∃ q, q = ((s.touch ((A.length + 1 : Nat) : Int)).touch
    ((A.length : Nat) : Int)).popBread.popBread := ⟨_, rfl⟩
  have hfrom₁ : (s.touch ((A.length + 1 : Nat) : Int)).blocks (A.length + 1) = z := hfrom
  have hfrom₂ : ((s.touch ((A.length + 1 : Nat) : Int)).touch ((A.length : Nat) : Int)).blocks
    (A.length + 1) = z := hfrom
  have hto₂ : ((s.touch ((A.length + 1 : Nat) : Int)).touch ((A.length : Nat) : Int)).blocks
    A.length = e := hto
  obtain ⟨u, hu⟩ : ∃ u, u = q.memcpy (getBlockNumber e) (getBlockSize e) (getBlockNumber z) 0 c :=
    ⟨_, rfl⟩
  obtain ⟨e', he'⟩ : ∃ e', e' = setBlockSize e ((getBlockSize e + c : Nat) : Int) := ⟨_, rfl⟩
  obtain ⟨z', hz'⟩ : ∃ z', z' = setBlockSize z ((getBlockSize z - c : Nat) : Int) := ⟨_, rfl⟩
  obtain ⟨v, hv⟩ : ∃ v, v = (u.setBlocks (A.length + 1) z').setBlocks A.length e' := ⟨_, rfl⟩
  obtain ⟨w, hw⟩ : ∃ w, w = (v.memcpy (getBlockNumber z) 0 (getBlockNumber z) c
    (getBlockSize z - c)).memset (getBlockNumber z) (getBlockSize z - c) c := ⟨_, rfl⟩
  have hunode : u.node = s.node := by rw [hu, hq]; rfl
  have hvnode : v.node = s.node := by rw [hv]; exact hunode
  have hub : ∀ i, u.blocks i = s.blocks i := by
    intro i
    apply blocks_congr (by rw [hunode])
    rw [hu, hq]
    simp only [Ctx.memcpy]
    rw [set_of_ne _ _ hne.symm]
    rfl
  have hvdisk : ∀ b, b ≠ s.node.indexBlock → v.disk b = u.disk b := by
    intro b hb
    rw [hv, disk_setBlocks_of_ne _ _ _ (by rw [← hunode] at hb; exact hb),
      disk_setBlocks_of_ne _ _ _ (by rw [hunode]; exact hb)]
  have hwdisk : ∀ b, b ≠ getBlockNumber z → w.disk b = v.disk b := by
    intro b hb
    rw [hw]
    simp only [Ctx.memset, Ctx.memcpy]
    rw [set_of_ne _ _ hb, set_of_ne _ _ hb]
  have hwb : ∀ i, w.blocks i = v.blocks i := by
    intro i
    apply blocks_congr
    · rw [hw]
      rfl
    · exact hwdisk _ (by rw [hvnode]; exact hnz.symm)
  have hsub : subBlockSize z c = z' := by
    rw [subBlockSize, hz']
    congr 1
    omega
  have hadd : addBlockSize e c = e' := by
    rw [addBlockSize, he']
    congr 1
  have hrun : moveShiftBlockContentTo s (A.length + 1) A.length (getBlockSize e) = (w, (c : Int)) := by
    have h1 : u.setBlocks (A.length + 1) (subBlockSize (u.blocks (A.length + 1)) c) =
        u.setBlocks (A.length + 1) z' := by rw [hub, hfrom, hsub]
    have h2 : addBlockSize ((u.setBlocks (A.length + 1) z').blocks A.length) c = e' := by
      rw [blocks_setBlocks_of_ne _ _ (by omega), hub, hto, hadd]
    have hmin : min (getBlockSize z) (blockSize - getBlockSize e) = c := hc.symm
    rw [moveShiftBlockContentTo]
    simp only [hfrom₁, hfrom₂, hto₂, hmin, if_neg (Nat.pos_iff_ne_zero.mp pos)]
    refine (if_neg read).trans ?_
    rw [← hq, ← hu, h1, h2, ← hv, ← hw]
  refine ⟨w, hrun, ?_, ?_, ?_, ?_, ?_, ?_, ?_, ?_, ?_⟩
  · rw [hwb, hv, blocks_setBlocks_self, he']
  · rw [hwb, hv, blocks_setBlocks_of_ne _ _ (by omega), blocks_setBlocks_self, hz']
  · intro i h1 h2
    rw [hwb, hv, blocks_setBlocks_of_ne _ _ h1, blocks_setBlocks_of_ne _ _ h2, hub]
  · rw [hwdisk _ hze.symm, hvdisk _ hne, hu, hq]
    simp only [Ctx.memcpy, set_self]
    rw [Ctx.copied_of_ne _ _ _ _ hze.symm]
    rfl
  · have hvz : v.disk (getBlockNumber z) = s.disk (getBlockNumber z) := by
      rw [hvdisk _ hnz, hu, hq]
      simp only [Ctx.memcpy]
      rw [set_of_ne _ _ hze]
      rfl
    have hcopied : v.copied (getBlockNumber z) 0 (getBlockNumber z) c (getBlockSize z - c) =
        s.copied (getBlockNumber z) 0 (getBlockNumber z) c (getBlockSize z - c) := by
      unfold Ctx.copied
      rw [hvz, hv, hu, hq]
      rfl
    rw [hw]
    simp only [Ctx.memset, Ctx.memcpy, set_self, hvz, hcopied]
  · intro b hb hbe hbz
    rw [hwdisk b hbz, hvdisk b hb, hu, hq]
    simp only [Ctx.memcpy]
    rw [set_of_ne _ _ hbe]
    rfl
  · rw [hw, hv, hu, hq]
    rfl
  · rw [hw]
    exact hvnode
  · rw [hw, hv, hu, hq]
    rfl

theorem moveShiftBlockContentTo_spec {s : Ctx} {A R : List Word} {e z : Word} {c : Nat}
    (shape : Shape s (A ++ e :: z :: R)) (hc : c = min (getBlockSize z) (4096 - getBlockSize e))
    (pos : 0 < c) :
    (∃ u, moveShiftBlockContentTo s (A.length + 1) A.length (getBlockSize e) = (u, -errIo) ∧
      u.disk = s.disk ∧ u.sbi = s.sbi ∧ u.node = s.node ∧ u.io.overlap = s.io.overlap ∧
      ¬ s.io.NoReadFails) ∨
    (∃ u, moveShiftBlockContentTo s (A.length + 1) A.length (getBlockSize e) = (u, (c : Int)) ∧
      s.io.bread 0 = true ∧ Drained s u A e z R c ∧ u.io.overlap = s.io.overlap ∧
      s.io.Later u.io) := by
  have hs := getBlockSize_le e
  by_cases hbad : s.io.bread 0 = false ∨ s.io.bread 1 = false
  · left
    have shape2 : Shape s ((A ++ [e]) ++ z :: R) := by simpa using shape
    have hat : s.blocks (A.length + 1) = z := by simpa using shape2.blocks_at
    have hfrom : (s.touch ((A.length + 1 : Nat) : Int)).blocks (A.length + 1) = z := hat
    have hc0 : ¬ min (getBlockSize z) (blockSize - getBlockSize e) = 0 := by
      simp only [blockSize]
      omega
    refine ⟨((s.touch ((A.length + 1 : Nat) : Int)).touch
      ((A.length : Nat) : Int)).popBread.popBread, ?_, rfl, rfl, rfl, rfl, ?_⟩
    · rw [moveShiftBlockContentTo]
      simp only [hfrom, if_neg hc0]
      exact if_pos hbad
    · intro hok
      rcases hbad with h | h
      · rw [hok 0] at h
        cases h
      · rw [hok 1] at h
        cases h
  · right
    obtain ⟨u, hrun, hshifted⟩ := moveShiftBlockContentTo_shifts shape hc pos hbad
    rw [not_or, Bool.not_eq_false] at hbad
    refine ⟨u, hrun, hbad.1, hshifted.drained shape (by omega) (by omega), ?_, 2, ?_⟩
    · rw [hshifted.io]
      rfl
    · intro n
      rw [hshifted.io]
      rfl

/-- The number of entries that hold a byte. -/
def filled (L : List Word) : Nat := L.countP (fun z => getBlockSize z ≠ 0)

/-- Every entry that holds a byte counts with its distance from the front. -/
def weight : List Word → Nat
  | [] => 0
  | z :: R => weight R + filled (z :: R)

theorem filled_cons_pos {z : Word} (R : List Word) (h : getBlockSize z ≠ 0) :
    filled (z :: R) = filled R + 1 := by
  simp [filled, h]

theorem filled_cons_zero {z : Word} (R : List Word) (h : getBlockSize z = 0) :
    filled (z :: R) = filled R := by
  simp [filled, h]

theorem filled_pos {R : List Word} (h : 0 < total R) : 0 < filled R := by
  induction R with
  | nil => simp at h
  | cons z R ih =>
    by_cases hz : getBlockSize z = 0
    · rw [filled_cons_zero R hz]
      rw [total_cons, hz, Nat.zero_add] at h
      exact ih h
    · rw [filled_cons_pos R hz]
      omega

theorem weight_append_zero {z : Word} (R : List Word) (h : getBlockSize z = 0) :
    weight (R ++ [z]) = weight R := by
  induction R with
  | nil => simp [weight, filled, h]
  | cons y R ih =>
    have hf : filled (y :: (R ++ [z])) = filled (y :: R) := by
      unfold filled
      rw [← List.cons_append, List.countP_append]
      simp [h]
    rw [List.cons_append, weight, weight, ih, hf]

/-- The first entry of the rest `R` is done with: its bytes stand in front of the
rest `R'`. -/
def Consumed (F : List Word) (e : Word) (R F' : List Word) (e' : Word) (R' : List Word) : Prop :=
  ∃ z R₀, R = z :: R₀ ∧
    total F' + getBlockSize e' = total F + getBlockSize e + getBlockSize z ∧ held R' = held R₀

/-- The file `es` rearranged: the same blocks, and the same bytes up to what `memcpy` has
spoilt. The blocks with the sizes `rest` are not drained yet. -/
structure Kept (s : Ctx) (es : List Word) (t : Ctx) (es' : List Word) (rest : List Nat) :
    Prop where
  shape : Shape t es'
  blocks : (numbers es').Perm (numbers es)
  size : total es' = total es
  bytes : Blurred s.io (held es) rest (bytesOf s.disk es) (bytesOf t.disk es')
  frame : ∀ b, b ≠ s.node.indexBlock → b ∉ numbers es → t.disk b = s.disk b
  sbi : t.sbi = s.sbi
  node : t.node = s.node
  overlap : t.io.overlap = s.io.overlap

/-- The run of full blocks `F`, the block `e` that is being filled, the rest `R`. -/
structure PassInv (s : Ctx) (es : List Word) (p : Pass) (F : List Word) (e : Word)
    (R : List Word) : Prop where
  kept : Kept s es p.ctx (F ++ e :: R) (held R)
  drained : ∃ pre, held es = pre ++ held R ∧ pre.sum = total F + getBlockSize e
  bli : p.bli = F.length
  full : ∀ f ∈ F, getBlockSize f = 4096
  cursor : p.logicalPos = getBlockSize e
  moved : p.dataMoved = total F + getBlockSize e
  reads : s.io.Later p.ctx.io

section Pass

variable {s : Ctx} {es : List Word} {p : Pass} {F R : List Word} {e z : Word}

theorem Kept.bubble {rest : List Nat} (k : Kept s es p.ctx (F ++ e :: z :: R) rest)
    (empty : getBlockSize z = 0) :
    let u := bubbleUpBlock (p.ctx.touch (F.length + 1)) (F.length + 1)
      (i32 (((p.ctx.touch (F.length + 1)).node.iBlocks : Int) - 1))
    Kept s es u (F ++ e :: (R ++ [z])) rest ∧ u.io = p.ctx.io := by
  intro u
  have hlen : (F ++ [e]).length = F.length + 1 := by simp
  have hshape : Shape (p.ctx.touch (F.length + 1)) ((F ++ [e]) ++ z :: R) := by
    have := @Shape.congr _ (p.ctx.touch (F.length + 1)) _ k.shape (fun _ _ => rfl) rfl rfl
    simpa using this
  obtain ⟨hshape', hframe, hsbi, hnode, hio, hbytes⟩ := bubbleUpBlock_spec hshape empty
  rw [hlen] at hshape' hframe hsbi hnode hio hbytes
  have hlist : (F ++ [e]) ++ (R ++ [z]) = F ++ e :: (R ++ [z]) := by simp
  have hlist' : (F ++ [e]) ++ z :: R = F ++ e :: z :: R := by simp
  rw [hlist] at hshape' hbytes
  rw [hlist'] at hbytes
  refine ⟨⟨hshape', ?_, ?_, ?_, ?_, hsbi.trans k.sbi, hnode.trans k.node, ?_⟩, hio⟩
  · refine List.Perm.trans ?_ k.blocks
    simp only [numbers_append, numbers_cons, numbers_nil]
    exact List.Perm.append_left _ (List.Perm.cons _ (List.perm_append_singleton _ _))
  · rw [← k.size]
    simp only [total_append, total_cons, total_nil]
    omega
  · rw [hbytes]
    exact k.bytes
  · intro b hb hbn
    rw [hframe.disk b (by rw [← k.node] at hb; exact hb)]
    exact k.frame b hb hbn
  · rw [hio]
    exact k.overlap

/-- The bytes of the file after `c` bytes of `z` have been appended to `e`. -/
theorem Drained.bytes {t u : Ctx} {c : Nat} (d : Drained t u F e z R c) :
    bytesOf u.disk (F ++ setBlockSize e ((getBlockSize e + c : Nat) : Int) ::
        setBlockSize z ((getBlockSize z - c : Nat) : Int) :: R) =
      (bytesOf t.disk F ++ entryBytes t.disk e ++ (entryBytes t.disk z).take c) ++
        (entryBytes u.disk (setBlockSize z ((getBlockSize z - c : Nat) : Int)) ++
          bytesOf t.disk R) := by
  have hF := d.exchanged.others F (fun f hf => by simp [hf])
  have hR := d.exchanged.others R (fun f hf => by simp [hf])
  simp only [bytesOf_append, bytesOf_cons, hF, hR, d.front, List.append_assoc]

theorem bytes_cut {t : Ctx} {c : Nat} : bytesOf t.disk (F ++ e :: z :: R) =
    (bytesOf t.disk F ++ entryBytes t.disk e ++ (entryBytes t.disk z).take c) ++
      ((entryBytes t.disk z).drop c ++ bytesOf t.disk R) := by
  simp only [bytesOf_append, bytesOf_cons, List.append_assoc]
  rw [← List.append_assoc (List.take c _), List.take_append_drop]

/-- Draining the block `z`, the next one behind the bytes in front of it. -/
theorem Kept.drain {t u : Ctx} {pre rest : List Nat} {c : Nat}
    (k : Kept s es t (F ++ e :: z :: R) (getBlockSize z :: rest))
    (split : held es = pre ++ getBlockSize z :: rest) (sum : pre.sum = total F + getBlockSize e)
    (aligned : total F % 4096 = 0) (room : getBlockSize e < 4096)
    (hc : c = min (getBlockSize z) (4096 - getBlockSize e)) (d : Drained t u F e z R c)
    (io : u.io.overlap = t.io.overlap) :
    Kept s es u (F ++ setBlockSize e ((getBlockSize e + c : Nat) : Int) ::
      setBlockSize z ((getBlockSize z - c : Nat) : Int) :: R) rest := by
  have hx := d.exchanged
  have hez := getBlockSize_le e
  have hz := getBlockSize_le z
  have hcursor : blockSize - pre.sum % blockSize = 4096 - getBlockSize e := by
    rw [sum, blockSize]
    omega
  refine ⟨by simpa using hx.shape, ?_, ?_, ?_, ?_, hx.frame.sbi.trans k.sbi,
    hx.frame.node.trans k.node, io.trans k.overlap⟩
  · refine List.Perm.trans (List.Perm.of_eq ?_) k.blocks
    simp
  · rw [← k.size]
    simp only [total_append, total_cons]
    rw [getBlockSize_setBlockSize_nat e (by omega), getBlockSize_setBlockSize_nat z (by omega)]
    omega
  · have hbytes := k.bytes
    rw [bytes_cut (c := c)] at hbytes
    rw [split] at hbytes ⊢
    rw [d.bytes]
    by_cases hapart : getBlockSize z ≤ 2 * c
    · rw [d.back hapart]
      refine hbytes.skip ?_
      rw [Fits, hcursor]
      omega
    · refine hbytes.drain ?_ ?_ ?_ ?_ ?_
      · rw [Fits, hcursor]
        omega
      · rw [entryBytes_length, getBlockSize_setBlockSize_nat z (by omega), List.length_drop,
          entryBytes_length]
      · rw [hcursor, sum]
        simp only [List.length_append, List.length_take, bytesOf_length, entryBytes_length]
        omega
      · rw [sum]
        simp only [List.length_append, List.length_take, List.length_drop, bytesOf_length,
          entryBytes_length]
        omega
      · intro a smears
        rw [List.length_drop, entryBytes_length]
        refine d.smeared hapart a fun dst dstOff srcOff len old k' => ?_
        rw [k.overlap]
        exact smears dst dstOff srcOff len old k'
  · intro b hb hbn
    have hbn' : b ∉ numbers (F ++ e :: z :: R) := fun h => hbn (k.blocks.mem_iff.mp h)
    rw [hx.frame.disk b (by rw [k.node]; exact hb), k.frame b hb hbn]
    simp only [numbers_append, numbers_cons, numbers_nil, List.mem_append, List.mem_cons,
      List.not_mem_nil, or_false, not_or] at hbn' ⊢
    exact ⟨hbn'.2.1, hbn'.2.2.1⟩

theorem Kept.congr {t u : Ctx} {es' : List Word} {rest : List Nat} (k : Kept s es t es' rest)
    (disk : u.disk = t.disk) (sbi : u.sbi = t.sbi) (node : u.node = t.node)
    (overlap : u.io.overlap = t.io.overlap) : Kept s es u es' rest := by
  refine ⟨k.shape.congr ?_ (by rw [node]) (by rw [node]), k.blocks, k.size, disk ▸ k.bytes,
    disk ▸ k.frame, sbi.trans k.sbi, node.trans k.node, overlap.trans k.overlap⟩
  intro i _
  exact blocks_congr (by rw [node]) (by rw [disk]) i

/-- A block that is not moved within its buffer needs no draining. -/
theorem Kept.skip {t : Ctx} {es' : List Word} {pre rest : List Nat} {n : Nat}
    (k : Kept s es t es' (n :: rest)) (split : held es = pre ++ n :: rest)
    (fits : Fits pre.sum n) : Kept s es t es' rest := by
  refine ⟨k.shape, k.blocks, k.size, ?_, k.frame, k.sbi, k.node, k.overlap⟩
  have hbytes := k.bytes
  rw [split] at hbytes ⊢
  exact hbytes.skip fits

/-- The pass goes on as long as there is a byte behind the block being filled. -/
theorem PassInv.goes_iff (h : PassInv s es p F e R) (size : s.node.iSize = total es) :
    (p.dataMoved < p.ctx.node.iSize ∧ p.bli < u64 ((p.ctx.node.iBlocks : Int) - 2)) ↔
      0 < total R := by
  have hk := h.kept
  have hl := hk.shape.length_le
  have hib := hk.shape.iBlocks
  have htotal := hk.size
  have hsize : p.ctx.node.iSize = total F + (getBlockSize e + total R) := by
    rw [hk.node, size, ← htotal]
    simp
  simp only [List.length_append, List.length_cons] at hl hib
  have hbound : u64 ((p.ctx.node.iBlocks : Int) - 2) = F.length + R.length := by
    rw [← u64_natCast (show F.length + R.length < 18446744073709551616 by omega), hib]
    congr 1
    push_cast
    omega
  rw [hbound, h.moved, h.bli, hsize]
  constructor
  · omega
  · intro hpos
    have hne : R ≠ [] := by
      rintro rfl
      exact absurd hpos (lt_irrefl 0)
    have := List.length_pos_iff.mpr hne
    omega

/-- The block being filled is full: the one behind it is filled next. -/
theorem PassInv.advance {u : Ctx} {e' z' : Word} {n : Nat}
    (kept : Kept s es u (F ++ e' :: z' :: R) (held R))
    (drained : ∃ pre, held es = pre ++ held R ∧
      pre.sum = total F + getBlockSize e' + getBlockSize z')
    (full : ∀ f ∈ F, getBlockSize f = 4096)
    (now : getBlockSize e' = 4096) (moved : n = total F + getBlockSize e')
    (reads : s.io.Later u.io) :
    PassInv s es ⟨u.touch ((F.length : Int) + 1), F.length + 1,
      n + getBlockSize (u.blocks (F.length + 1)), getBlockSize (u.blocks (F.length + 1))⟩
      (F ++ [e']) z' R := by
  have hlist : F ++ e' :: z' :: R = (F ++ [e']) ++ z' :: R := by simp
  rw [hlist] at kept
  have hat : u.blocks (F.length + 1) = z' := by simpa using kept.shape.blocks_at
  rw [hat]
  refine ⟨kept.congr rfl rfl rfl rfl, ?_, by simp, ?_, rfl, ?_, reads⟩
  · simpa using drained
  · intro f hf
    rcases List.mem_append.mp hf with hF | he
    · exact full f hF
    · rw [List.mem_singleton.mp he]
      exact now
  · rw [moved]
    simp

/-- The block at the front of the rest holds bytes: they are moved into the one being
filled, which may be full already. -/
theorem PassInv.drain {s₁ : Ctx} (h : PassInv s es p F e (z :: R)) (ne : getBlockSize z ≠ 0)
    (kept : Kept s es s₁ (F ++ e :: z :: R) (held (z :: R))) (reads : s.io.Later s₁.io)
    {r : Ctx × Int} (run : moveShiftBlockContentTo s₁ (F.length + 1) F.length (getBlockSize e) = r) :
    (r.2 < 0 ∧ Kept s es r.1 (F ++ e :: z :: R) (held (z :: R)) ∧ ¬ s.io.NoReadFails) ∨
    (¬ r.2 < 0 ∧ ∃ F' e' R', weight R' < weight (z :: R) ∧ Consumed F e (z :: R) F' e' R' ∧
      (s₁.io.bread 0 = false → getBlockSize e = 4096) ∧
      PassInv s es (if getBlockSize e + r.2.toNat = blockSize then
          ⟨r.1.touch ((F.length : Int) + 1), F.length + 1,
            p.dataMoved + r.2.toNat + getBlockSize (r.1.blocks (F.length + 1)),
            getBlockSize (r.1.blocks (F.length + 1))⟩
        else ⟨r.1, F.length, p.dataMoved + r.2.toNat, getBlockSize e + r.2.toNat⟩) F' e' R') := by
  have hweight : weight R < weight (z :: R) := by
    rw [weight, filled_cons_pos R ne]
    omega
  have hez := getBlockSize_le e
  have hzz := getBlockSize_le z
  have hF := total_of_full h.full
  obtain ⟨pre, hpre, hsum⟩ := h.drained
  have hpre' : held es = (pre ++ [getBlockSize z]) ++ held R := by
    rw [hpre, held_cons_pos R ne]
    simp
  by_cases hfull : getBlockSize e = 4096
  · right
    have hnothing : moveShiftBlockContentTo s₁ (F.length + 1) F.length (getBlockSize e) =
        (s₁.touch ((F.length + 1 : Nat) : Int), 0) := by
      rw [moveShiftBlockContentTo, if_pos (by rw [hfull]; simp [blockSize])]
    rw [← run, hnothing]
    refine ⟨lt_irrefl 0, F ++ [e], z, R, hweight, ⟨z, R, rfl, by simp, rfl⟩, fun _ => hfull, ?_⟩
    rw [if_pos (show getBlockSize e + (0 : Int).toNat = blockSize from hfull)]
    have hfits : Fits pre.sum (getBlockSize z) :=
      fits_of_aligned (by rw [hsum, hfull, blockSize]; omega) hzz
    rw [held_cons_pos R ne] at kept hpre
    exact PassInv.advance ((kept.skip hpre hfits).congr rfl rfl rfl rfl)
      ⟨pre ++ [getBlockSize z], hpre', by simp [hsum]⟩ h.full hfull h.moved reads
  obtain ⟨c, hc⟩ : ∃ c, c = min (getBlockSize z) (4096 - getBlockSize e) := ⟨_, rfl⟩
  rcases moveShiftBlockContentTo_spec kept.shape hc (by omega) with
    ⟨u, hrun, hdisk, hsbi, hnode, hover, hfail⟩ | ⟨u, hrun, hread, hd, hio⟩
  · left
    rw [← run, hrun]
    exact ⟨show -errIo < 0 by decide, kept.congr hdisk hsbi hnode hover,
      fun hok => hfail (reads.const hok)⟩
  right
  have hunread : s₁.io.bread 0 = false → getBlockSize e = 4096 := by
    intro hno
    rw [hread] at hno
    cases hno
  rw [held_cons_pos R ne] at kept hpre
  have hkept := kept.drain hpre hsum hF (by omega) hc hd hio.1
  have hsize_e : getBlockSize (setBlockSize e ((getBlockSize e + c : Nat) : Int)) =
      getBlockSize e + c := getBlockSize_setBlockSize_nat e (by omega)
  have hsize_z : getBlockSize (setBlockSize z ((getBlockSize z - c : Nat) : Int)) =
      getBlockSize z - c := getBlockSize_setBlockSize_nat z (by omega)
  have hmoved : p.dataMoved + c =
      total F + getBlockSize (setBlockSize e ((getBlockSize e + c : Nat) : Int)) := by
    rw [h.moved, hsize_e]
    omega
  rw [← run, hrun]
  refine ⟨Int.not_lt.mpr (Int.natCast_nonneg c), ?_⟩
  simp only [Int.toNat_natCast]
  by_cases hnow : getBlockSize e + c = blockSize
  · rw [if_pos hnow]
    refine ⟨_, _, R, hweight, ⟨z, R, rfl, ?_, rfl⟩, hunread, PassInv.advance hkept
      ⟨pre ++ [getBlockSize z], hpre', ?_⟩ h.full (hsize_e.trans hnow) hmoved
      (reads.trans hio.2)⟩
    · rw [total_append, total_cons, total_nil, hsize_e, hsize_z]
      omega
    · rw [List.sum_append, List.sum_singleton, hsum, hsize_e, hsize_z]
      omega
  · -- the drained block is empty now
    rw [if_neg hnow]
    simp only [blockSize] at hnow
    have hdrained : getBlockSize (setBlockSize z ((getBlockSize z - c : Nat) : Int)) = 0 := by
      rw [hsize_z]
      omega
    have hrest := held_cons_zero R hdrained
    refine ⟨F, _, _, ?_, ⟨z, R, rfl, ?_, hrest⟩, hunread, hrest ▸ hkept,
      ⟨pre ++ [getBlockSize z], hrest ▸ hpre', ?_⟩, rfl, h.full, hsize_e.symm, hmoved,
      reads.trans hio.2⟩
    · rw [weight, weight, filled_cons_pos R ne, filled_cons_zero R hdrained]
      omega
    · rw [hsize_e]
      omega
    · rw [List.sum_append, List.sum_singleton, hsum, hsize_e]
      omega

/-- One iteration of the first pass: the pass is over, a read has failed, or the
weight of the rest has gone down. No block with bytes is drained without a read
unless the block being filled is full. -/
theorem passStep_cases (h : PassInv s es p F e R) (size : s.node.iSize = total es) :
    (passStep p = .done (p, 0) ∧ total R = 0) ∨
    (∃ t, passStep p = .done ({ p with ctx := t }, -errIo) ∧ held R ≠ [] ∧
      Kept s es t (F ++ e :: R) (held R) ∧ ¬ s.io.NoReadFails) ∨
    (∃ p' F' e' R', passStep p = .next p' ∧ PassInv s es p' F' e' R' ∧
      weight R' < weight R ∧ Consumed F e R F' e' R' ∧
      (p.ctx.io.bread 0 = false → getBlockSize e = 4096 ∨ held R' = held R)) := by
  by_cases hrest : 0 < total R
  swap
  · exact Or.inl ⟨if_neg fun hcond => hrest ((h.goes_iff size).mp hcond), by omega⟩
  right
  have hcond := (h.goes_iff size).mpr hrest
  obtain ⟨z, R, rfl⟩ : ∃ z R', R = z :: R' := by
    cases R with
    | nil => exact absurd hrest (lt_irrefl 0)
    | cons z R => exact ⟨z, R, rfl⟩
  obtain ⟨s₁, hs₁⟩ : ∃ s₁, s₁ = p.ctx.touch (F.length + 1) := ⟨_, rfl⟩
  have hk₁ : Kept s es s₁ (F ++ e :: z :: R) (held (z :: R)) := by
    rw [hs₁]
    exact h.kept.congr rfl rfl rfl rfl
  have hat : s₁.blocks (F.length + 1) = z := by
    have : Shape s₁ ((F ++ [e]) ++ z :: R) := by simpa using hk₁.shape
    simpa using this.blocks_at
  have hreads : s.io.Later s₁.io := by
    rw [hs₁]
    exact h.reads
  have hio₁ : s₁.io = p.ctx.io := by
    rw [hs₁]
    rfl
  have htouch : p.ctx.touch ((p.bli : Int) + 1) = s₁ := by rw [hs₁, h.bli]
  unfold passStep
  simp only [if_pos hcond, htouch]
  rw [h.bli, hat, h.cursor]
  by_cases hempty : getBlockSize z = 0
  · -- an empty block is rotated to the end
    right
    rw [if_pos ((blockEmpty_iff z).mpr hempty)]
    obtain ⟨hkept, hio⟩ := h.kept.bubble hempty
    have hheld : held (R ++ [z]) = held (z :: R) :=
      (held_append_zero R hempty).trans (held_cons_zero R hempty).symm
    rw [← hs₁] at hkept hio
    refine ⟨_, F, e, R ++ [z], rfl, ⟨hheld ▸ hkept, hheld ▸ h.drained, rfl, h.full, rfl, h.moved, ?_⟩,
      ?_, ⟨z, R, rfl, by omega, held_append_zero R hempty⟩, fun _ => Or.inr hheld⟩
    · rw [hio]
      exact h.reads
    · have hpos : 0 < filled R := by
        rw [total_cons, hempty, Nat.zero_add] at hrest
        exact filled_pos hrest
      rw [weight_append_zero R hempty, weight, filled_cons_zero R hempty]
      omega
  rw [if_neg (by rw [blockEmpty_iff]; exact hempty)]
  rcases h.drain hempty hk₁ hreads rfl with
    ⟨hfail, hkept, hio⟩ | ⟨hgoes, F', e', R', hless, hconsumed, hunread, hinv⟩
  · exact Or.inl ⟨_, if_pos hfail, by rw [held_cons_pos R hempty]; simp, hkept, hio⟩
  · right
    rw [if_neg hgoes]
    refine ⟨_, F', e', R', ?_, hinv, hless, hconsumed, fun hno => Or.inl (hunread (hio₁ ▸ hno))⟩
    split
    · rfl
    · rfl

theorem PassInv.entries_drop (h : PassInv s es p F e R) : p.ctx.entries.drop (p.bli + 1) = R := by
  rw [h.kept.shape.entries_eq, h.bli, List.drop_append]
  simp

/-- A defragmentation that has met a failing read in the state `t`: no block has been
drained yet, or one that holds bytes is left. -/
def Stopped (s : Ctx) (es : List Word) (t : Ctx) : Prop :=
  ∃ es' rest, (rest = held es ∨ rest ≠ []) ∧ Kept s es t es' rest ∧
    Filled (held es) rest (held es')

theorem PassInv.filled (h : PassInv s es p F e R) :
    Filled (held es) (held R) (held (F ++ e :: R)) := by
  obtain ⟨pre, hpre, hsum⟩ := h.drained
  refine ⟨pre, held (F ++ [e]), hpre, ?_, ?_, ?_⟩
  · rw [← held_append, List.append_assoc]
    rfl
  · rw [sum_held, hsum]
    simp
  · have hF : ∀ n ∈ held F, n = 4096 := by
      intro n hn
      obtain ⟨f, hf, rfl⟩ := List.mem_map.mp (List.mem_of_mem_filter hn)
      exact h.full f hf
    by_cases he : getBlockSize e = 0
    · rw [held_append_zero F he]
      exact fun n hn => hF n (List.mem_of_mem_dropLast hn)
    · rw [held_append, held_cons_pos [] he, show held [] = [] from rfl, List.dropLast_concat]
      exact hF

/-- What holds when the first pass is left. -/
def PassPost (s : Ctx) (es : List Word) (r : Pass × Int) : Prop :=
  (r.2 = 0 ∧ ∃ F e R, PassInv s es r.1 F e R ∧ total R = 0) ∨
    (r.2 = -errIo ∧ ¬ s.io.NoReadFails ∧ Stopped s es r.1.ctx)

theorem firstPass_spec (h : PassInv s es p F e R) (size : s.node.iSize = total es) :
    (∃ fuel r, iterate passStep fuel p = some r) ∧
      ∀ fuel r, iterate passStep fuel p = some r → PassPost s es r := by
  have hinv : ∃ F e R, PassInv s es p F e R := ⟨F, e, R, h⟩
  constructor
  · refine iterate_terminates (fun p => weight (p.ctx.entries.drop (p.bli + 1)))
      (fun p => ∃ F e R, PassInv s es p F e R) ?_ p hinv
    rintro q ⟨F, e, R, hq⟩ q' hstep
    rcases passStep_cases hq size with ⟨hdone, _⟩ | ⟨t, hdone, _⟩ | ⟨q'', F', e', R', hnext, hq', hlt, _⟩
    · rw [hdone] at hstep
      cases hstep
    · rw [hdone] at hstep
      cases hstep
    · rw [hnext] at hstep
      cases hstep
      refine ⟨⟨F', e', R', hq'⟩, ?_⟩
      simp only [hq.entries_drop, hq'.entries_drop]
      exact hlt
  · intro fuel r hrun
    refine iterate_sound (fun p => ∃ F e R, PassInv s es p F e R) (PassPost s es) ?_ hinv hrun
    rintro q ⟨F, e, R, hq⟩
    rcases passStep_cases hq size with
      ⟨hdone, hz⟩ | ⟨t, hdone, hne, hkept, hfail⟩ | ⟨q', F', e', R', hnext, hq', _⟩
    · refine ⟨?_, fun q' hq' => by rw [hdone] at hq'; cases hq'⟩
      intro r' hr
      rw [hdone] at hr
      cases hr
      exact Or.inl ⟨rfl, F, e, R, hq, hz⟩
    · refine ⟨?_, fun q' hq' => by rw [hdone] at hq'; cases hq'⟩
      intro r' hr
      rw [hdone] at hr
      cases hr
      exact Or.inr ⟨rfl, hfail, _, _, Or.inr hne, hkept, hq.filled⟩
    · refine ⟨fun r' hr => (by rw [hnext] at hr; cases hr), ?_⟩
      intro q'' hq''
      rw [hnext] at hq''
      cases hq''
      exact ⟨F', e', R', hq'⟩

end Pass

theorem freeLoop_spec (D : List Word) :
    ∀ (bli : Nat) (s : Ctx),
      (∀ i, bli ≤ i → i < bli + D.length → (freeLoop D.length bli s).blocks i = 0) ∧
      (∀ i, i < bli ∨ bli + D.length ≤ i → (freeLoop D.length bli s).blocks i = s.blocks i) ∧
      IndexOnly s (freeLoop D.length bli s) ∧
      (freeLoop D.length bli s).node = s.node ∧ (freeLoop D.length bli s).io = s.io := by
  induction D with
  | nil =>
    intro bli s
    exact ⟨fun i lo hi => by simp at hi; omega, fun _ _ => rfl, IndexOnly.refl s, rfl, rfl⟩
  | cons d D ih =>
    intro bli s
    obtain ⟨t, ht⟩ : ∃ t, t =
      ({ s with sbi := putBlock s.sbi (getBlockNumber (s.blocks bli)) } : Ctx).setBlocks bli 0 :=
      ⟨_, rfl⟩
    have hrun : freeLoop (d :: D).length bli s = freeLoop D.length (bli + 1) t := by
      rw [List.length_cons, freeLoop, ht]
    obtain ⟨hin, hout, hframe, hnode, hio⟩ := ih (bli + 1) t
    rw [hrun]
    refine ⟨?_, ?_, ?_, ?_, ?_⟩
    · intro i lo hi
      simp only [List.length_cons] at hi
      by_cases hi0 : i = bli
      · subst hi0
        rw [hout i (by omega), ht, blocks_setBlocks_self]
      · exact hin i (by omega) (by omega)
    · intro i hi
      simp only [List.length_cons] at hi
      rw [hout i (by omega), ht, blocks_setBlocks_of_ne _ _ (by omega)]
      rfl
    · have hst : IndexOnly s t := by
        rw [ht]
        exact ⟨fun b hb => disk_setBlocks_of_ne _ _ _ hb, rfl⟩
      exact hst.trans hframe
    · rw [hnode, ht]
      rfl
    · rw [hio, ht]
      rfl

theorem freeLoop_released (D : List Word) :
    ∀ (bli : Nat) (s : Ctx), (∀ i, i < D.length → s.blocks (bli + i) = D[i]?.getD 0) →
      (∀ b ∈ numbers D, b ≤ s.sbi.nrBlocks) →
      Released s.sbi (freeLoop D.length bli s).sbi (numbers D) := by
  induction D with
  | nil =>
    intro bli s _ _
    exact Released.nil s.sbi
  | cons d D ih =>
    intro bli s hblocks hrange
    have hd : s.blocks bli = d := by simpa using hblocks 0 (by simp)
    obtain ⟨t, ht⟩ : ∃ t, t = ({ s with sbi := putBlock s.sbi (getBlockNumber d) } : Ctx).setBlocks
      bli 0 := ⟨_, rfl⟩
    have hrun : freeLoop (d :: D).length bli s = freeLoop D.length (bli + 1) t := by
      rw [List.length_cons, freeLoop, ht]
      simp only [hd]
    have hgiven : Given s.sbi t.sbi (getBlockNumber d) := by
      rw [ht]
      exact putBlock_given (hrange _ (by simp))
    rw [hrun]
    refine Released.cons hgiven (ih (bli + 1) t ?_ ?_)
    · intro i hi
      have hother : t.blocks (bli + 1 + i) = s.blocks (bli + 1 + i) := by
        rw [ht, blocks_setBlocks_of_ne _ _ (by omega)]
        rfl
      rw [hother, show bli + 1 + i = bli + (i + 1) by omega, hblocks (i + 1) (by simpa using hi)]
      rfl
    · intro b hb
      exact hgiven.layout.nrBlocks ▸ hrange b (by simp [hb])

/-- A compacted file: the bytes of `es`, up to what `memcpy` has spoilt, on fewer blocks;
the others are given back. -/
structure Compacted (s : Ctx) (es : List Word) (t : Ctx) (es' : List Word) (freed : List Nat) :
    Prop where
  shape : Shape t es'
  size : total es' = total es
  bytes : Blurred s.io (held es) [] (bytesOf s.disk es) (bytesOf t.disk es')
  blocks : (numbers es' ++ freed).Perm (numbers es)
  frame : ∀ b, b ≠ s.node.indexBlock → b ∉ numbers es → t.disk b = s.disk b
  released : Released s.sbi t.sbi freed
  node : ∃ n mt ct, t.node = { s.node with iBlocks := n, iMtime := mt, iCtime := ct }
  full : ∀ f ∈ es'.dropLast, getBlockSize f = 4096
  positive : ∀ f ∈ es', 0 < getBlockSize f

/-- The first pass is over: the entries `K` are compact, the entries `D` hold nothing,
and the second pass starts behind `K`. -/
structure Separated (s : Ctx) (es : List Word) (p : Pass) (K D : List Word) : Prop where
  kept : Kept s es p.ctx (K ++ D) []
  start : (if blockEmpty (p.ctx.blocks p.bli) then p.bli else p.bli + 1) = K.length
  empty : ∀ d ∈ D, getBlockSize d = 0
  full : ∀ f ∈ K.dropLast, getBlockSize f = 4096
  positive : ∀ f ∈ K, 0 < getBlockSize f
  reads : s.io.NoReadFails → p.ctx.io.NoReadFails

section

variable {s : Ctx} {es : List Word}

/-- The second pass as the run of its loop over the entries `D`. -/
theorem Separated.secondPass_eq {p : Pass} {K D : List Word} (h : Separated s es p K D) :
    secondPass p =
      let u := freeLoop D.length K.length (p.ctx.touch p.bli)
      { u with node := { u.node with
          iBlocks := K.length + 1, iMtime := u.io.now, iCtime := u.io.now } } := by
  have hl := h.kept.shape.length_le
  have hib := h.kept.shape.iBlocks
  simp only [List.length_append] at hl hib
  obtain ⟨q, hq⟩ : ∃ q, q = p.ctx.touch p.bli := ⟨_, rfl⟩
  have hqb : ∀ i, q.blocks i = p.ctx.blocks i := by rw [hq]; exact fun _ => rfl
  have hqi : q.node.iBlocks = K.length + D.length + 1 := by rw [hq]; exact hib
  have hremoved : u64 ((q.node.iBlocks : Int) - 1) - K.length = D.length := by
    rw [u64_pred (by omega) (by omega), hqi]
    omega
  have hwrap : u64 ((q.node.iBlocks : Int) - D.length) = K.length + 1 := by
    rw [← u64_natCast (show K.length + 1 < 18446744073709551616 by omega), hqi]
    congr 1
    push_cast
    omega
  obtain ⟨_, _, _, hnode, _⟩ := freeLoop_spec D K.length q
  unfold secondPass
  simp only [← hq]
  rw [hqb, h.start, hremoved, hnode, hwrap]

/-- What the second pass leaves, whatever blocks it frees. -/
structure Squeezed (s : Ctx) (es : List Word) (t : Ctx) (es' : List Word) : Prop where
  shape : Shape t es'
  size : total es' = total es
  bytes : Blurred s.io (held es) [] (bytesOf s.disk es) (bytesOf t.disk es')
  frame : ∀ b, b ≠ s.node.indexBlock → b ∉ numbers es → t.disk b = s.disk b
  node : ∃ n mt ct, t.node = { s.node with iBlocks := n, iMtime := mt, iCtime := ct }
  full : ∀ f ∈ es'.dropLast, getBlockSize f = 4096
  positive : ∀ f ∈ es', 0 < getBlockSize f
  reads : s.io.NoReadFails → t.io.NoReadFails

theorem Separated.squeezed {p : Pass} {K D : List Word} (h : Separated s es p K D) :
    Squeezed s es (secondPass p) K := by
  have k := h.kept
  have hl := k.shape.length_le
  simp only [List.length_append] at hl
  obtain ⟨q, hq⟩ : ∃ q, q = p.ctx.touch p.bli := ⟨_, rfl⟩
  have hqb : ∀ i, q.blocks i = p.ctx.blocks i := by rw [hq]; exact fun _ => rfl
  have hqn : q.node = s.node := by rw [hq]; exact k.node
  have hnodup := k.shape.distinct
  rw [numbers_append] at hnodup
  have hKn := (List.nodup_append.mp hnodup).1
  obtain ⟨hin, hout, hframe, hnode, hio⟩ := freeLoop_spec D K.length q
  obtain ⟨u, hu⟩ : ∃ u, u = freeLoop D.length K.length q := ⟨_, rfl⟩
  rw [← hu] at hin hout hframe hnode hio
  rw [h.secondPass_eq, ← hq, ← hu]
  simp only
  have hdisk : ∀ b, b ≠ s.node.indexBlock → u.disk b = p.ctx.disk b := by
    intro b hb
    rw [hframe.disk b (by rw [hqn]; exact hb), hq]
    rfl
  refine ⟨⟨by omega, ?_, rfl, hKn, ?_⟩, ?_, ?_, ?_, ?_, h.full, h.positive, ?_⟩
  · intro i hi
    change u.blocks i = _
    rcases Nat.lt_or_ge i K.length with hK | hK
    · rw [hout i (by omega), hqb, k.shape.slots i hi, List.getElem?_append_left hK]
    · rw [List.getElem?_eq_none hK]
      rcases Nat.lt_or_ge i (K.length + D.length) with hD | hD
      · exact hin i hK hD
      · rw [hout i (by omega), hqb, k.shape.slots i hi,
          List.getElem?_eq_none (by simp only [List.length_append]; omega)]
  · change u.node.indexBlock ∉ _
    rw [hnode, hqn, ← k.node]
    intro hmem
    exact k.shape.apart (by simp [hmem])
  · have hsum := k.size
    rw [total_append, total_of_sizes_zero h.empty, Nat.add_zero] at hsum
    exact hsum
  · have hK : bytesOf u.disk K = bytesOf p.ctx.disk K := by
      apply bytesOf_congr
      intro f hf
      apply hdisk
      rw [← k.node]
      exact k.shape.ne_index (by simp [hf])
    have hb := k.bytes
    rw [bytesOf_append, bytesOf_of_sizes_zero _ h.empty, List.append_nil] at hb
    rw [← hK] at hb
    exact hb
  · intro b hb hbn
    exact (hdisk b hb).trans (k.frame b hb hbn)
  · exact ⟨K.length + 1, u.io.now, u.io.now, by rw [hnode, hqn]⟩
  · intro hok
    change u.io.NoReadFails
    rw [hio, hq]
    exact h.reads hok

/-- The second pass keeps the entries `K` and frees the empty entries `D`. -/
theorem secondPass_spec {p : Pass} {K D : List Word} (h : Separated s es p K D)
    (range : ∀ b ∈ numbers es, b ≤ s.sbi.nrBlocks) :
    Compacted s es (secondPass p) K (numbers D) := by
  have sq := h.squeezed
  have k := h.kept
  have hl := k.shape.length_le
  simp only [List.length_append] at hl
  have hperm : (numbers K ++ numbers D).Perm (numbers es) := by
    have := k.blocks
    rwa [numbers_append] at this
  have hsbi : (p.ctx.touch p.bli).sbi = s.sbi := k.sbi
  refine ⟨sq.shape, sq.size, sq.bytes, hperm, sq.frame, ?_, sq.node, h.full, h.positive⟩
  have hrel := freeLoop_released D K.length (p.ctx.touch p.bli)
    (by
      intro i hi
      change p.ctx.blocks (K.length + i) = _
      rw [k.shape.slots _ (by omega), List.getElem?_append_right (by omega),
        Nat.add_sub_cancel_left])
    (fun b hb => hsbi ▸ range b (hperm.mem_iff.mp (List.mem_append_right _ hb)))
  rw [hsbi] at hrel
  rw [h.secondPass_eq]
  exact hrel

/-- A first pass that is left in order leaves the empty blocks behind the compact ones. -/
theorem PassInv.separated {p : Pass} {F R : List Word} {e : Word} (h : PassInv s es p F e R)
    (rest : total R = 0) : ∃ K D, Separated s es p K D := by
  have hkept := h.kept
  rw [held_eq_nil.mpr rest] at hkept
  have hempty : ∀ d ∈ R, getBlockSize d = 0 := sizes_zero_of_total rest
  have hcur : p.ctx.blocks p.bli = e := by
    rw [h.bli]
    exact h.kept.shape.blocks_at
  by_cases he : getBlockSize e = 0
  · refine ⟨F, e :: R, hkept, ?_, ?_, ?_, ?_, h.reads.const⟩
    · rw [hcur, if_pos ((blockEmpty_iff e).mpr he), h.bli]
    · intro d hd
      rcases List.mem_cons.mp hd with rfl | hd
      · exact he
      · exact hempty d hd
    · exact fun f hf => h.full f (List.mem_of_mem_dropLast hf)
    · intro f hf
      rw [h.full f hf]
      decide
  · refine ⟨F ++ [e], R, by simpa using hkept, ?_, hempty, ?_, ?_, h.reads.const⟩
    · rw [hcur, if_neg (by rw [blockEmpty_iff]; exact he), h.bli]
      simp
    · intro f hf
      rw [List.dropLast_concat] at hf
      exact h.full f hf
    · intro f hf
      rcases List.mem_append.mp hf with hF | he'
      · rw [h.full f hF]
        decide
      · rw [List.mem_singleton.mp he']
        omega

/-- The state in which the first pass starts. -/
def passStart (s : Ctx) : Pass :=
  let q := s.popBread.touch 0
  ⟨q, 0, getBlockSize (q.blocks 0), getBlockSize (q.blocks 0)⟩

theorem ouichefsDefrag_eq (read : ¬ s.io.bread 0 = false) (fuel : Nat) :
    ouichefsDefrag fuel s = (iterate passStep fuel (passStart s)).map fun r =>
      if r.2 < 0 then (r.1.ctx, r.2) else (secondPass r.1, 0) :=
  if_neg read

/-- A state with the same blocks, before any block is drained. -/
theorem kept_all {t : Ctx} (shape : Shape s es) (disk : t.disk = s.disk) (sbi : t.sbi = s.sbi)
    (node : t.node = s.node) (overlap : t.io.overlap = s.io.overlap) :
    Kept s es t es (held es) := by
  have hkept : Kept s es s es (held es) :=
    ⟨shape, List.Perm.refl _, rfl, Blurred.refl _ _ _, fun _ _ _ => rfl, rfl, rfl, rfl⟩
  exact hkept.congr disk sbi node overlap

theorem passStart_kept (shape : Shape s es) : Kept s es (passStart s).ctx es (held es) :=
  kept_all shape rfl rfl rfl rfl

theorem passStart_reads (s : Ctx) : s.io.Later (passStart s).ctx.io := ⟨1, fun _ => rfl⟩

theorem passStart_eq {e : Word} {R : List Word} (shape : Shape s (e :: R)) :
    passStart s = ⟨s.popBread.touch 0, 0, getBlockSize e, getBlockSize e⟩ := by
  have hat : (s.popBread.touch 0).blocks 0 = e := shape.blocks_at (A := [])
  simp only [passStart, hat]

theorem passStart_inv {e : Word} {R : List Word} (shape : Shape s (e :: R)) :
    PassInv s (e :: R) (passStart s) [] e R := by
  have hkept := passStart_kept shape
  have hreads := passStart_reads s
  rw [passStart_eq shape] at hkept hreads ⊢
  suffices hfront : Kept s (e :: R) (s.popBread.touch 0) (e :: R) (held R) ∧
      ∃ pre, held (e :: R) = pre ++ held R ∧ pre.sum = total [] + getBlockSize e from
    ⟨hfront.1, hfront.2, rfl, by simp, rfl, by simp, hreads⟩
  by_cases he : getBlockSize e = 0
  · rw [held_cons_zero R he] at hkept
    exact ⟨hkept, [], held_cons_zero R he, by simp [he]⟩
  · rw [held_cons_pos R he] at hkept
    have hsplit : held (e :: R) = [] ++ getBlockSize e :: held R := held_cons_pos R he
    exact ⟨hkept.skip hsplit (fits_of_aligned rfl (getBlockSize_le e)), [getBlockSize e], hsplit,
      by simp⟩

/-- A file without data: the first pass has nothing to do. -/
theorem passStart_empty (shape : Shape s []) (size : s.node.iSize = total []) :
    passStep (passStart s) = .done (passStart s, 0) ∧ Separated s [] (passStart s) [] [] := by
  have hz : (s.popBread.touch 0).blocks 0 = 0 := shape.slots 0 (by decide)
  have hsize : (passStart s).ctx.node.iSize = 0 := size
  constructor
  · refine if_neg ?_
    rintro ⟨hlt, _⟩
    rw [hsize] at hlt
    exact Nat.not_lt_zero _ hlt
  · refine ⟨passStart_kept shape, ?_, by simp, by simp, by simp, (passStart_reads s).const⟩
    simp only [passStart, hz]
    rfl

/-- A defragmentation ends, with its second pass or at a read that fails. -/
theorem ouichefsDefrag_ends (shape : Shape s es) (size : s.node.iSize = total es) :
    (∃ fuel r, ouichefsDefrag fuel s = some r) ∧
      ∀ fuel r, ouichefsDefrag fuel s = some r →
        (r.2 = 0 ∧ ∃ p K D, Separated s es p K D ∧ r.1 = secondPass p) ∨
        (r.2 = -errIo ∧ ¬ s.io.NoReadFails ∧ Stopped s es r.1) := by
  by_cases hread : s.io.bread 0 = false
  · have hrun : ∀ fuel, ouichefsDefrag fuel s = some (s.popBread, -errIo) := fun fuel =>
      if_pos hread
    refine ⟨⟨0, _, hrun 0⟩, ?_⟩
    intro fuel r hr
    rw [hrun fuel] at hr
    cases hr
    refine Or.inr ⟨rfl, fun hok => ?_, es, held es, Or.inl rfl, kept_all shape rfl rfl rfl rfl,
      [], [], rfl, rfl, rfl, by simp⟩
    rw [hok 0] at hread
    cases hread
  suffices hpass : (∃ fuel r, iterate passStep fuel (passStart s) = some r) ∧
      ∀ fuel r, iterate passStep fuel (passStart s) = some r →
        (r.2 = 0 ∧ ∃ K D, Separated s es r.1 K D) ∨
        (r.2 = -errIo ∧ ¬ s.io.NoReadFails ∧ Stopped s es r.1.ctx) by
    obtain ⟨⟨fuel, r, hfuel⟩, hpost⟩ := hpass
    refine ⟨⟨fuel, _, by rw [ouichefsDefrag_eq hread, hfuel]; rfl⟩, ?_⟩
    intro fuel' r' hr'
    rw [ouichefsDefrag_eq hread] at hr'
    obtain ⟨r₀, hr₀, rfl⟩ := Option.map_eq_some_iff.mp hr'
    rcases hpost fuel' r₀ hr₀ with ⟨hret, K, D, hsep⟩ | ⟨hret, hfail, hk⟩
    · left
      rw [if_neg (by rw [hret]; exact lt_irrefl 0)]
      exact ⟨rfl, r₀.1, K, D, hsep, rfl⟩
    · right
      rw [if_pos (by rw [hret]; decide)]
      exact ⟨hret, hfail, hk⟩
  cases es with
  | nil =>
    obtain ⟨hdone, hsep⟩ := passStart_empty shape size
    refine ⟨⟨1, (passStart s, 0), by simp only [iterate, hdone]⟩, ?_⟩
    intro fuel r hr
    cases fuel with
    | zero => cases hr
    | succ fuel =>
      simp only [iterate, hdone, Option.some.injEq] at hr
      rw [← hr]
      exact Or.inl ⟨rfl, [], [], hsep⟩
  | cons e R =>
    obtain ⟨hterm, hsound⟩ := firstPass_spec (passStart_inv shape) size
    refine ⟨hterm, ?_⟩
    intro fuel r hr
    rcases hsound fuel r hr with ⟨hret, F, e', R', hinv', hz⟩ | hfail
    · exact Or.inl ⟨hret, hinv'.separated hz⟩
    · exact Or.inr hfail

/-- A defragmentation ends; it compacts the file unless a read fails. -/
theorem ouichefsDefrag_spec (shape : Shape s es)
    (range : ∀ b ∈ numbers es, b ≤ s.sbi.nrBlocks) (size : s.node.iSize = total es) :
    (∃ fuel r, ouichefsDefrag fuel s = some r) ∧
      ∀ fuel r, ouichefsDefrag fuel s = some r →
        (r.2 = 0 ∧ ∃ es' freed, Compacted s es r.1 es' freed) ∨
        (r.2 = -errIo ∧ ¬ s.io.NoReadFails ∧ Stopped s es r.1) := by
  obtain ⟨hends, hpost⟩ := ouichefsDefrag_ends shape size
  refine ⟨hends, ?_⟩
  intro fuel r hr
  rcases hpost fuel r hr with ⟨hret, p, K, D, hsep, hlast⟩ | hfail
  · rw [hlast]
    exact Or.inl ⟨hret, K, numbers D, secondPass_spec hsep range⟩
  · exact Or.inr hfail

end

theorem ouichefsDefrag_mono {m n : Nat} {s : Ctx} {r : Ctx × Int} (h : m ≤ n)
    (hm : ouichefsDefrag m s = some r) : ouichefsDefrag n s = some r := by
  unfold ouichefsDefrag at hm ⊢
  split at hm
  · rename_i hread
    rw [if_pos hread]
    exact hm
  · rename_i hread
    rw [if_neg hread]
    obtain ⟨r₀, hr₀, hr⟩ := Option.map_eq_some_iff.mp hm
    exact Option.map_eq_some_iff.mpr ⟨r₀, iterate_mono h hr₀, hr⟩

/-- Full blocks and a last one that holds a byte are as many as the bytes need. -/
theorem length_of_full {es : List Word} (full : ∀ f ∈ es.dropLast, getBlockSize f = 4096)
    (positive : ∀ f ∈ es, 0 < getBlockSize f) : es.length = (total es + 4095) / 4096 := by
  rcases List.eq_nil_or_concat es with rfl | ⟨F, e, rfl⟩
  · rfl
  rw [List.concat_eq_append] at full positive ⊢
  rw [List.dropLast_concat] at full
  have hF : total F = 4096 * F.length := by
    clear positive
    induction F with
    | nil => rfl
    | cons f F ih =>
      rw [total_cons, full f List.mem_cons_self,
        ih (fun g hg => full g (List.mem_cons_of_mem f hg)), List.length_cons]
      omega
  have he := positive e (by simp)
  have hle := getBlockSize_le e
  simp only [total_append, total_cons, total_nil, hF, List.length_append, List.length_singleton]
  omega

/-- The blocks of the file lie on the volume, apart from its index block, and
the free counter has room for them. -/
structure OnVolume (s : Ctx) : Prop where
  apart : s.node.indexBlock ∉ numbers s.entries
  range : ∀ b ∈ numbers s.entries, b < s.sbi.nrBlocks
  counter : s.sbi.nrFreeBlocks + (s.node.iBlocks - 1) < 4294967296

/-- The file in `t` is the file in `s` on as few blocks as possible. -/
structure IsCompaction (s t : Ctx) : Prop where
  content : t.content = s.content
  size : t.node.iSize = s.node.iSize
  count : t.node.iBlocks = (s.node.iSize + 4095) / 4096 + 1
  full : ∀ i, i + 2 < t.node.iBlocks → getBlockSize (t.blocks i) = 4096
  zero : ∀ i, t.node.iBlocks - 1 ≤ i → i < 1024 → t.blocks i = 0
  kept : ∀ b ∈ numbers t.entries, b ∈ numbers s.entries
  bitmap : ∀ b, t.sbi.bfreeBitmap b = (s.sbi.bfreeBitmap b ||
    decide (b ∈ numbers s.entries ∧ b ∉ numbers t.entries))
  counter : t.sbi.nrFreeBlocks = s.sbi.nrFreeBlocks +
    ((numbers s.entries).filter (fun b => b ∉ numbers t.entries)).length

theorem Compacted.isCompaction {s t : Ctx} {es' : List Word} {freed : List Nat}
    (c : Compacted s s.entries t es' freed) (wf : WellFormed s) (vol : OnVolume s)
    (drainable : Drainable s) : IsCompaction s t := by
  obtain ⟨n, mt, ct, hnode⟩ := c.node
  have hsize : t.node.iSize = s.node.iSize := by rw [hnode]
  have htotal : total es' = s.node.iSize := by
    rw [c.size, ← wf.size]
  have hlen := length_of_full c.full c.positive
  have hib := c.shape.iBlocks
  have hentries := c.shape.entries_eq
  have hnodup : (numbers es' ++ freed).Nodup := c.blocks.nodup_iff.mpr wf.distinct
  obtain ⟨_, hfn, hdis⟩ := List.nodup_append.mp hnodup
  have hfreed : ∀ b, b ∈ freed ↔ b ∈ numbers s.entries ∧ b ∉ numbers es' := by
    intro b
    have hmem : b ∈ numbers es' ++ freed ↔ b ∈ numbers s.entries := c.blocks.mem_iff
    rw [List.mem_append] at hmem
    constructor
    · intro hb
      exact ⟨hmem.mp (Or.inr hb), fun hk => hdis b hk b hb rfl⟩
    · rintro ⟨hb, hk⟩
      exact (hmem.mpr hb).resolve_left hk
  have hperm : freed.Perm ((numbers s.entries).filter (fun b => b ∉ numbers es')) := by
    rw [List.perm_ext_iff_of_nodup hfn (wf.distinct.filter _)]
    intro b
    rw [hfreed, List.mem_filter, decide_eq_true_iff]
  have hle : freed.length ≤ s.node.iBlocks - 1 := by
    have := c.blocks.length_eq
    simp only [List.length_append, numbers, List.length_map, entries_length] at this
    omega
  have hcounter := vol.counter
  refine ⟨?_, hsize, by rw [hib, hlen, htotal], ?_, ?_, ?_, ?_, ?_⟩
  · rw [c.shape.content_eq, c.bytes.eq ((drainable_iff_unspoilt s).mp drainable)]
    rfl
  · exact fun i hi => c.shape.full_slot c.full (by omega)
  · intro i hi hlt
    rw [c.shape.slots i hlt, List.getElem?_eq_none (by omega)]
    rfl
  · rw [hentries]
    intro b hb
    exact c.blocks.mem_iff.mp (List.mem_append_left freed hb)
  · intro b
    rw [c.released.bitmap, hentries]
    congr 1
    exact decide_eq_decide.mpr (hfreed b)
  · rw [c.released.count (by omega), hentries, hperm.length_eq]

theorem ouichefsDefrag_compacted {s : Ctx} (wf : WellFormed s) (vol : OnVolume s)
    (reads : s.io.NoReadFails) : ∃ t es' freed, Compacted s s.entries t es' freed ∧
      ∃ n, ∀ fuel, n ≤ fuel → ouichefsDefrag fuel s = some (t, 0) := by
  obtain ⟨⟨n, r, hrun⟩, hpost⟩ := ouichefsDefrag_spec (wf.shape vol.apart)
    (fun b hb => Nat.le_of_lt (vol.range b hb)) wf.size
  rcases hpost n r hrun with ⟨hret, es', freed, hc⟩ | ⟨_, hfail, _⟩
  · refine ⟨r.1, es', freed, hc, n, ?_⟩
    intro fuel hle
    rw [ouichefsDefrag_mono hle hrun, ← hret]
  · exact absurd reads hfail

/-- `memcpy` leaves the byte `a` wherever its ranges overlap. -/
def smearIo (a : Byte) : Io := { calmIo with overlap := fun _ _ _ _ _ _ => a }

/-- With no failing read a defragmentation terminates and compacts the file, whatever
`memcpy` makes of overlapping ranges, exactly if no block is drained less than half. -/
theorem ouichefsDefrag_compacts_iff (s : Ctx) (wf : WellFormed s) (vol : OnVolume s) :
    (∀ io : Io, io.NoReadFails → ∃ t, IsCompaction s t ∧
      ∃ n, ∀ fuel, n ≤ fuel → ouichefsDefrag fuel { s with io := io } = some (t, 0)) ↔
        Drainable s := by
  have hwf : ∀ io : Io, WellFormed { s with io := io } := fun _ =>
    ⟨wf.1, wf.2, wf.3, wf.4, wf.5, wf.6⟩
  have hvol : ∀ io : Io, OnVolume { s with io := io } := fun _ => ⟨vol.1, vol.2, vol.3⟩
  constructor
  · intro h
    rw [drainable_iff_unspoilt]
    intro P hspoilt
    -- some byte differs from the one of the file at this place
    obtain ⟨a, ha⟩ : ∃ a : Byte, s.content[P]? ≠ some a := by
      by_cases hzero : s.content[P]? = some 0
      · exact ⟨1, by rw [hzero]; decide⟩
      · exact ⟨0, hzero⟩
    obtain ⟨t, hcompact, n, hrun⟩ := h (smearIo a) (fun _ => rfl)
    obtain ⟨t', es', freed, hc, n', hrun'⟩ :=
      ouichefsDefrag_compacted (hwf (smearIo a)) (hvol (smearIo a)) (fun _ => rfl)
    have heq := (hrun (max n n') (by omega)).symm.trans (hrun' (max n n') (by omega))
    obtain rfl : t = t' := congrArg Prod.fst (Option.some.inj heq)
    have hbyte := hc.bytes.smeared P hspoilt a (fun _ _ _ _ _ _ => rfl)
    rw [← hc.shape.content_eq, hcompact.content] at hbyte
    exact ha hbyte
  · intro hdrain io hreads
    obtain ⟨t, es', freed, hc, hrun⟩ := ouichefsDefrag_compacted (hwf io) (hvol io) hreads
    have hcompact := hc.isCompaction (hwf io) (hvol io) hdrain
    exact ⟨t, ⟨hcompact.1, hcompact.2, hcompact.3, hcompact.4, hcompact.5, hcompact.6,
      hcompact.7, hcompact.8⟩, hrun⟩

/-- A file of 4097 bytes on five blocks, two of them empty. -/
def scatteredCtx : Ctx where
  sbi := ⟨100, 102, 2, 1, 1, 100, 88, fun _ => false, fun b => decide (12 ≤ b ∧ b < 100)⟩
  disk := fun b => if b = 6 then
      ofWords32 (fun i => [freshEntry 7, setBlockSize (freshEntry 8) 4000, freshEntry 9,
        setBlockSize (freshEntry 10) 1, setBlockSize (freshEntry 11) 96][i]?.getD 0)
    else fun k => BitVec.ofNat 8 (b + k)
  node := ⟨33188, 0, 0, 4097, ⟨0, 0⟩, ⟨0, 0⟩, ⟨0, 0⟩, 6, 1, 6⟩
  io := calmIo
  touched := []

theorem scatteredCtx_shape : Shape scatteredCtx [freshEntry 7, setBlockSize (freshEntry 8) 4000,
    freshEntry 9, setBlockSize (freshEntry 10) 1, setBlockSize (freshEntry 11) 96] :=
  shape_of_words (by decide) rfl rfl (by decide) (by decide)

theorem ouichefsDefrag_compacts_scattered : ∃ t, IsCompaction scatteredCtx t ∧
    ∃ n, ∀ fuel, n ≤ fuel → ouichefsDefrag fuel { scatteredCtx with io := calmIo } = some (t, 0) :=
  (ouichefsDefrag_compacts_iff scatteredCtx
    (scatteredCtx_shape.wellFormed (nonzero_of_numbers (by decide)) (by decide +kernel))
    ⟨by rw [scatteredCtx_shape.entries_eq]; decide, by rw [scatteredCtx_shape.entries_eq]; decide,
      by decide⟩).mpr (by decide +kernel) calmIo fun _ => rfl

/-- `n` bytes are copied one by one, the last one first. -/
def copyDown (dstOff srcOff : Nat) : Nat → Buffer → Buffer
  | 0, b => b
  | n + 1, b => copyDown dstOff srcOff n fun i => if i = dstOff + n then b (srcOff + n) else b i

/-- Nothing fails, and `memcpy` copies downwards. -/
def downIo : Io :=
  { calmIo with
    overlap := fun _ dstOff srcOff len old k => copyDown dstOff srcOff len old (dstOff + k) }

/-- A file of 7897 bytes, 3896 in its first block, 4000 in its second and one in its third. -/
def drivenCtx : Ctx where
  sbi := ⟨100, 102, 2, 1, 1, 100, 90, fun _ => false, fun b => decide (10 ≤ b ∧ b < 100)⟩
  disk := fun b => if b = 6 then
      ofWords32 (fun i => [setBlockSize (freshEntry 7) 3896, setBlockSize (freshEntry 8) 4000,
        setBlockSize (freshEntry 9) 1][i]?.getD 0)
    else fun k => BitVec.ofNat 8 (b + k)
  node := ⟨33188, 0, 0, 7897, ⟨0, 0⟩, ⟨0, 0⟩, ⟨0, 0⟩, 4, 1, 6⟩
  io := downIo
  touched := []

theorem drivenCtx_shape : Shape drivenCtx [setBlockSize (freshEntry 7) 3896,
    setBlockSize (freshEntry 8) 4000, setBlockSize (freshEntry 9) 1] :=
  shape_of_words (by decide) rfl rfl (by decide) (by decide)

/-- 200 bytes of the second block go to the first; the 3800 others are then copied over
one another, and the defragmentation returns 0 with another content. -/
theorem defrag_alters_content :
    WellFormed drivenCtx ∧ OnVolume drivenCtx ∧ drivenCtx.io.NoReadFails ∧
      ∃ t, (∃ fuel, ouichefsDefrag fuel drivenCtx = some (t, 0)) ∧
        t.content ≠ drivenCtx.content := by
  have hrun : (ouichefsDefrag 5 drivenCtx).map (fun r => (r.2, r.1.content[4096]?)) =
      some (0, some 224) := by
    decide +kernel
  have hold : drivenCtx.content[4096]? = some 208 := by decide +kernel
  obtain ⟨⟨t, ret⟩, hrun, heq⟩ := Option.map_eq_some_iff.mp hrun
  obtain ⟨rfl, hnew⟩ := Prod.mk.inj heq
  refine ⟨drivenCtx_shape.wellFormed (nonzero_of_numbers (by decide)) (by decide +kernel),
    ⟨?_, ?_, by decide⟩, fun _ => rfl, t, ⟨5, hrun⟩, fun hsame => ?_⟩
  · rw [drivenCtx_shape.entries_eq]
    decide
  · rw [drivenCtx_shape.entries_eq]
    decide
  · rw [hsame, hold] at hnew
    cases hnew

end Compaction
