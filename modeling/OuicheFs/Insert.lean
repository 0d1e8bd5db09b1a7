import OuicheFs.Pour
import OuicheFs.Search

/-!
# A write with insertion, followed on the list of entries

The stages of `ouichefs_light_write` are put together: the gap fill, the hole,
the split of the block at the cursor and the copy. Every exit leaves a file
whose entries name the old blocks and the freshly allocated ones, and whose
content is the old one with a gap appended and a prefix of the data inserted.
-/
namespace Insert

open CInt ByteBuffer IndexEntry Allocator FileContext Layout OuicheFile OuicheWrite Reserve Pour
  Search

theorem capacity_dropLast_of_zero {F : List Word} (h : ∀ f ∈ F, getBlockSize f = 0) :
    capacity F.dropLast = 4096 * (F.length - 1) := by
  rw [capacity_of_sizes_zero (fun f hf => h f (List.mem_of_mem_dropLast hf)),
    List.length_dropLast]

theorem tight_zero {F : List Word} {r : Nat} (h : ∀ f ∈ F, getBlockSize f = 0)
    (lo : 4096 * (F.length - 1) < r) (hi : r ≤ 4096 * F.length) : Tight F r := by
  constructor
  · rw [capacity_dropLast_of_zero h]
    exact lo
  · rw [capacity_of_sizes_zero h]
    exact hi

theorem tight_cons {e : Word} {F : List Word} {r : Nat} (h : ∀ f ∈ F, getBlockSize f = 0)
    (pos : 0 < r) (lo : F ≠ [] → 4096 - getBlockSize e + 4096 * (F.length - 1) < r)
    (hi : r ≤ 4096 - getBlockSize e + 4096 * F.length) : Tight (e :: F) r := by
  constructor
  · cases F with
    | nil => simpa using pos
    | cons f F =>
      rw [List.dropLast_cons_of_ne_nil (by simp), capacity_cons, capacity_dropLast_of_zero h]
      exact lo (by simp)
  · rw [capacity_cons, capacity_of_sizes_zero h]
    exact hi

/-- The bytes of a block behind the recorded ones. -/
def slackBytes (disk : Store) (e : Word) : List Byte :=
  slice (disk (getBlockNumber e)) (getBlockSize e) (4096 - getBlockSize e)

@[simp] theorem slackBytes_length (disk : Store) (e : Word) :
    (slackBytes disk e).length = 4096 - getBlockSize e := by
  simp [slackBytes]

/-- Extending one block records the next bytes it holds. -/
theorem entryBytes_extend (disk : Store) (e : Word) {len : Nat} (h : getBlockSize e + len ≤ 4096) :
    entryBytes disk (setBlockSize e ((getBlockSize e + len : Nat) : Int)) =
      entryBytes disk e ++ (slackBytes disk e).take len := by
  rw [slackBytes, slice_take _ _ (by omega)]
  simp only [entryBytes, getBlockNumber_setBlockSize, getBlockSize_setBlockSize_nat e h]
  rw [← slice_append, Nat.zero_add]

theorem take_slack_append (disk : Store) (e : Word) (r : Nat) (rest : List Byte) :
    (slackBytes disk e ++ rest).take r = (slackBytes disk e).take (min (4096 - getBlockSize e) r) ++
      rest.take (r - min (4096 - getBlockSize e) r) := by
  rw [List.take_append, slackBytes_length]
  rcases Nat.le_total r (4096 - getBlockSize e) with hle | hge
  · rw [Nat.min_eq_right hle, Nat.sub_eq_zero_of_le hle, Nat.sub_self]
  · have hall : (slackBytes disk e).take (4096 - getBlockSize e) = slackBytes disk e :=
      List.take_of_length_le (by simp)
    rw [Nat.min_eq_left hge, hall, List.take_of_length_le (by simpa using hge)]

/-- Empty blocks record what they hold, from the first one on. -/
theorem bytesOf_pour_empty (disk : Store) (L : List Word) (zero : ∀ f ∈ L, getBlockSize f = 0) :
    ∀ r, bytesOf disk (pour L r) = (L.flatMap (slackBytes disk)).take r := by
  induction L with
  | nil =>
    intro r
    simp [pour]
  | cons e L ih =>
    intro r
    have he := zero e (by simp)
    have htail : ∀ f ∈ L, getBlockSize f = 0 := fun f hf => zero f (by simp [hf])
    rcases Nat.eq_zero_or_pos r with rfl | pos
    · rw [pour_zero, bytesOf_of_sizes_zero _ zero, List.take_zero]
    · have hnone : entryBytes disk e = [] := by
        apply List.eq_nil_of_length_eq_zero
        rw [entryBytes_length, he]
      rw [pour_cons_pos e L pos, bytesOf_cons, entryBytes_extend disk e (by omega), hnone,
        List.nil_append, ih htail, List.flatMap_cons, take_slack_append]

/-- Extending the first block of a run and the empty ones behind it keeps the
old bytes in front and records what the blocks hold behind them. -/
theorem bytesOf_pour_extends (disk : Store) {L : List Word} (r : Nat)
    (zero : ∀ f ∈ L.tail, getBlockSize f = 0) :
    bytesOf disk (pour L r) = bytesOf disk L ++ (L.flatMap (slackBytes disk)).take r := by
  cases L with
  | nil => simp [pour]
  | cons e L =>
    rcases Nat.eq_zero_or_pos r with rfl | pos
    · simp
    have hs := getBlockSize_le e
    have hzero : bytesOf disk L = [] := bytesOf_of_sizes_zero _ zero
    rw [pour_cons_pos e L pos, bytesOf_cons, bytesOf_cons, hzero, List.append_nil,
      entryBytes_extend disk e (by omega), bytesOf_pour_empty disk L zero, List.flatMap_cons,
      take_slack_append, List.append_assoc]

theorem Slots.spaceAvailable_neg_iff {s : Ctx} {es : List Word} (h : Slots s es) {n : Nat}
    (small : n < 1000000000) :
    spaceAvailable s n < 0 ↔ 1024 < n + es.length ∨ s.sbi.nrFreeBlocks < n := by
  have hl := h.length_le
  have hu : u64 ((n : Int) + s.node.iBlocks - 1) = n + es.length := by
    have := u64_natCast (n := n + es.length) (by omega)
    rw [← this, h.iBlocks]
    congr 1
    push_cast
    omega
  unfold spaceAvailable
  rw [hu]
  by_cases hslots : n + es.length > indexSlots
  · rw [if_pos hslots]
    simp only [indexSlots] at hslots
    simp [errNospc, hslots]
  rw [if_neg hslots]
  simp only [indexSlots] at hslots
  by_cases hfree : n > s.sbi.nrFreeBlocks
  · rw [if_pos hfree]
    simp [errNospc, hfree]
  · rw [if_neg hfree]
    omega

theorem spaceAvailable_neg_iff {s : Ctx} {es : List Word} (h : Shape s es) {n : Nat}
    (small : n < 1000000000) :
    spaceAvailable s n < 0 ↔ 1024 < n + es.length ∨ s.sbi.nrFreeBlocks < n :=
  Slots.spaceAvailable_neg_iff h.toSlots small

/-- What is known after the content behind `lp` has been moved from the entry
`e` to the empty entry `t`. -/
structure Moved (s u : Ctx) (A : List Word) (e : Word) (M : List Word) (t : Word)
    (Z : List Word) (lp : Nat) : Prop where
  exchanged : Exchanged s u A e (setBlockSize e lp) M t
    (setBlockSize t ((getBlockSize e - lp : Nat) : Int)) Z
  front : entryBytes u.disk (setBlockSize e lp) = (entryBytes s.disk e).take lp
  back : entryBytes u.disk (setBlockSize t ((getBlockSize e - lp : Nat) : Int)) =
    (entryBytes s.disk e).drop lp

theorem moveOldContentTo_spec {s : Ctx} {A M Z : List Word} {e t : Word} {lp : Nat}
    (shape : Shape s (A ++ e :: M ++ t :: Z)) (hlp : lp ≤ getBlockSize e) :
    ((s.io.bread 0 = false ∨ s.io.bread 1 = false) ∧
      ∃ u, moveOldContentTo s A.length (A.length + 1 + M.length) lp = (u, -errIo) ∧
        u.disk = s.disk ∧ u.sbi = s.sbi ∧ u.node = s.node) ∨
    (¬ (s.io.bread 0 = false ∨ s.io.bread 1 = false) ∧
      ∃ u, moveOldContentTo s A.length (A.length + 1 + M.length) lp = (u, 0) ∧
        Moved s u A e M t Z lp) := by
  have hs := getBlockSize_le e
  have shape1 : Shape s (A ++ e :: (M ++ t :: Z)) := by simpa using shape
  have shape2 : Shape s ((A ++ e :: M) ++ t :: Z) := by simpa using shape
  have hfrom : s.blocks A.length = e := shape1.blocks_at
  have hto : s.blocks (A.length + 1 + M.length) = t := by
    have := shape2.blocks_at
    simpa [Nat.add_assoc, Nat.add_comm 1] using this
  have hne : getBlockNumber e ≠ s.node.indexBlock := shape1.ne_index (by simp)
  have hnt : getBlockNumber t ≠ s.node.indexBlock := shape1.ne_index (by simp)
  have hte : getBlockNumber t ≠ getBlockNumber e := shape1.others_ne.2 t (by simp)
  by_cases hbad : s.io.bread 0 = false ∨ s.io.bread 1 = false
  · exact Or.inl ⟨hbad, _, if_pos hbad, rfl, rfl, rfl⟩
  refine Or.inr ⟨hbad, ?_⟩
  obtain ⟨c, hc⟩ : ∃ c, c = getBlockSize e - lp := ⟨_, rfl⟩
  obtain ⟨q, hq⟩ : ∃ q, q = ((s.touch A.length).touch
    ((A.length + 1 + M.length : Nat) : Int)).popBread.popBread := ⟨_, rfl⟩
  -- the two data writes, then the two index words
  obtain ⟨u, hu⟩ : ∃ u, u = (q.memcpy (getBlockNumber t) 0 (getBlockNumber e) lp c).memset
    (getBlockNumber e) lp c := ⟨_, rfl⟩
  have hdisk : ∀ b, b ≠ getBlockNumber e → b ≠ getBlockNumber t → u.disk b = s.disk b := by
    intro b hbe hbt
    rw [hu, hq]
    simp only [Ctx.memset, Ctx.memcpy]
    rw [set_of_ne _ _ hbe, set_of_ne _ _ hbt]
    rfl
  have hnode : u.node = s.node := by rw [hu, hq]; rfl
  have hb : ∀ i, u.blocks i = s.blocks i := fun i =>
    blocks_congr (by rw [hnode]) (hdisk _ hne.symm hnt.symm) i
  have hsub : subBlockSize e c = setBlockSize e lp := by
    rw [subBlockSize, hc]
    congr 1
    omega
  obtain ⟨v, hv⟩ : ∃ v, v = (u.setBlocks A.length (setBlockSize e lp)).setBlocks
    (A.length + 1 + M.length) (setBlockSize t (c : Int)) := ⟨_, rfl⟩
  have hrun : moveOldContentTo s A.length (A.length + 1 + M.length) lp = (v, 0) := by
    have h1 : u.setBlocks A.length (subBlockSize (u.blocks A.length) c) =
        u.setBlocks A.length (setBlockSize e lp) := by rw [hb, hfrom, hsub]
    have h2 : (u.setBlocks A.length (setBlockSize e lp)).blocks (A.length + 1 + M.length) = t := by
      rw [blocks_setBlocks_of_ne _ _ (by omega), hb, hto]
    rw [hv, ← h2, ← h1, hu, hq, hc, ← hfrom, ← hto]
    exact if_neg hbad
  have hvdisk : ∀ b, b ≠ s.node.indexBlock → v.disk b = u.disk b := by
    intro b hbi
    rw [hv, disk_setBlocks_of_ne _ _ _ (by rw [← hnode] at hbi; exact hbi),
      disk_setBlocks_of_ne _ _ _ (by rw [hnode]; exact hbi)]
  refine ⟨v, hrun, ?_, ?_, ?_⟩
  · rw [← hc]
    refine exchange shape (getBlockNumber_setBlockSize e _) (getBlockNumber_setBlockSize t _)
      ?_ ?_ ?_ ?_ ?_ ?_
    · rw [hv, blocks_setBlocks_of_ne _ _ (by omega), blocks_setBlocks_self]
    · rw [hv, blocks_setBlocks_self]
    · intro i h1 h2
      rw [hv, blocks_setBlocks_of_ne _ _ h2, blocks_setBlocks_of_ne _ _ h1, hb]
    · intro b hbi hbe hbt
      rw [hvdisk b hbi, hdisk b hbe hbt]
    · rw [hv, hu, hq]
      rfl
    · rw [hv]
      exact hnode
  · have hbytes : u.disk (getBlockNumber e) = fill (s.disk (getBlockNumber e)) lp c 0 := by
      rw [hu, hq]
      simp only [Ctx.memset, Ctx.memcpy, set_self]
      rw [set_of_ne _ _ hte.symm]
      rfl
    simp only [entryBytes, getBlockNumber_setBlockSize,
      getBlockSize_setBlockSize_nat e (show lp ≤ 4096 by omega)]
    rw [hvdisk _ hne, hbytes, slice_take _ _ hlp]
    apply slice_congr
    intro k hk
    exact blit_outside _ _ (by omega)
  · have hbytes : u.disk (getBlockNumber t) = blit (s.disk (getBlockNumber t)) 0 c
        (fun k => s.disk (getBlockNumber e) (lp + k)) := by
      rw [hu, hq]
      simp only [Ctx.memset, Ctx.memcpy]
      rw [set_of_ne _ _ hte, set_self, Ctx.copied_of_ne _ _ _ _ hte]
      rfl
    rw [← hc]
    simp only [entryBytes, getBlockNumber_setBlockSize,
      getBlockSize_setBlockSize_nat t (show c ≤ 4096 by omega)]
    rw [hvdisk _ hnt, hbytes, slice_drop _ _ hlp, ← hc]
    apply slice_congr
    intro k hk
    rw [blit_inside _ _ (by omega) (by omega)]
    simp

/-- What holds at every exit of the insertion at offset `q`: the first `m`
bytes of the data have been inserted, the blocks `fresh` have been taken. -/
structure Outcome (s : Ctx) (es : List Word) (q : Nat) (buff : List Byte) (fresh : List Nat)
    (es' : List Word) (m : Nat) (r : Ctx × Int × Nat) : Prop where
  left : r.2.2 = buff.length - m
  le : m ≤ buff.length
  code : r.2.1 ≤ 0
  complete : r.2.1 = 0 → m = buff.length ∨ es.length = 1024
  shape : Shape r.1 es'
  allocated : Allocated s.sbi r.1.sbi fresh
  blocks : (numbers es').Perm (numbers es ++ fresh)
  frame : ∀ b, b ≠ s.node.indexBlock → b ∉ numbers es' → r.1.disk b = s.disk b
  node : ∃ n, r.1.node = { s.node with iBlocks := n }
  bytes : bytesOf r.1.disk es' =
    (bytesOf s.disk es).take q ++ buff.take m ++ (bytesOf s.disk es).drop q
  positive : m = buff.length → buff ≠ [] → (∀ e ∈ es, 0 < getBlockSize e) →
    ∀ e ∈ es', 0 < getBlockSize e
  dense : m = buff.length → buff ≠ [] → total es ≤ q → Dense es → Dense es'

/-- The volume before the copy loop, seen from the start of the insertion: the
entries are `es` and the zero-size entries of `fresh`, cut at the cursor. -/
structure Prepared (s t : Ctx) (es : List Word) (fresh : List Nat) (es' : List Word) :
    Prop where
  shape : Shape t es'
  allocated : Allocated s.sbi t.sbi fresh
  blocks : (numbers es').Perm (numbers es ++ fresh)
  frame : ∀ b, b ≠ s.node.indexBlock → b ∉ numbers es' → t.disk b = s.disk b
  node : ∃ n, t.node = { s.node with iBlocks := n }
  bytes : bytesOf t.disk es' = bytesOf s.disk es

theorem Prepared.stop {s t : Ctx} {es es' : List Word} {fresh : List Nat}
    (p : Prepared s t es fresh es') (q : Nat) (buff : List Byte) {ret : Int}
    (code : ret < 0 ∨ ret = 0 ∧ es.length = 1024) :
    Outcome s es q buff fresh es' 0 (t, ret, buff.length) := by
  have hall : 0 = buff.length → buff ≠ [] → False := fun h hne =>
    hne (List.eq_nil_of_length_eq_zero h.symm)
  refine ⟨rfl, Nat.zero_le _, ?_, ?_, p.shape, p.allocated, p.blocks, p.frame, p.node, ?_,
    fun h hne => (hall h hne).elim, fun h hne => (hall h hne).elim⟩
  · change ret ≤ 0
    omega
  · intro h
    change ret = 0 at h
    exact Or.inr (code.elim (fun hlt => by omega) And.right)
  · rw [p.bytes]
    simp

theorem Prepared.refl {s t : Ctx} {es : List Word} (shape : Shape s es)
    (ok : BlocksOk s.sbi) (disk : t.disk = s.disk) (sbi : t.sbi = s.sbi)
    (node : t.node = s.node) : Prepared s t es [] es := by
  refine ⟨shape.congr ?_ (by rw [node]) (by rw [node]), by rw [sbi]; exact Allocated.nil ok, by simp, ?_,
    ⟨s.node.iBlocks, node⟩, by rw [disk]⟩
  · intro i _
    exact blocks_congr (by rw [node]) (by rw [disk]) i
  · intro b _ _
    rw [disk]

/-- The copy loop finishes the insertion. -/
theorem Prepared.copied {s t : Ctx} {es A L Z : List Word} {q m : Nat} {fresh : List Nat}
    {buff : List Byte} {r : Ctx × Int × Nat} (p : Prepared s t es fresh (A ++ L ++ Z))
    (front : total A + total L = q) (c : Copied buff t A L Z buff.length m r)
    (tight : buff ≠ [] → Tight L buff.length)
    (positive : (∀ e ∈ es, 0 < getBlockSize e) →
      (∀ e ∈ A, 0 < getBlockSize e) ∧ (∀ e ∈ Z, 0 < getBlockSize e))
    (dense : total es ≤ q → Dense es → (∀ e ∈ A, getBlockSize e = 4096) ∧ Z = []) :
    Outcome s es q buff fresh (A ++ pour L m ++ Z) m r := by
  have hnum : numbers (A ++ pour L m ++ Z) = numbers (A ++ L ++ Z) := by simp
  obtain ⟨n, hn⟩ := p.node
  have hindex : t.node.indexBlock = s.node.indexBlock := by rw [hn]
  refine ⟨c.left, c.le, c.code, fun h => Or.inl (c.complete h), c.shape, ?_, ?_, ?_, ?_, ?_, ?_,
    ?_⟩
  · rw [c.frame.sbi]
    exact p.allocated
  · rw [hnum]
    exact p.blocks
  · intro b hb hbn
    rw [hnum] at hbn
    have hL : b ∉ numbers L := fun h => hbn (by simp [h])
    rw [c.frame.disk b (hindex ▸ hb) hL, p.frame b hb hbn]
  · exact ⟨n, by rw [c.frame.node, hn]⟩
  · have hb := p.bytes
    rw [bytesOf_append, bytesOf_append] at hb
    have hlen : (bytesOf t.disk A ++ bytesOf t.disk L).length = q := by
      simp [front]
    have htake : (bytesOf s.disk es).take q = bytesOf t.disk A ++ bytesOf t.disk L := by
      rw [← hb, List.take_append_of_le_length (by omega), List.take_of_length_le (by omega)]
    have hdrop : (bytesOf s.disk es).drop q = bytesOf t.disk Z := by
      rw [← hb, List.drop_append_of_le_length (by omega), List.drop_of_length_le (by omega),
        List.nil_append]
    rw [c.bytes, htake, hdrop, Nat.sub_self, List.drop_zero]
  · intro hm hne hpos
    obtain ⟨hA, hZ⟩ := positive hpos
    have hL := pour_pos (tight hne)
    rw [← hm] at hL
    intro e he
    simp only [List.mem_append] at he
    rcases he with (he | he) | he
    · exact hA e he
    · exact hL e he
    · exact hZ e he
  · intro hm hne hend hdense
    obtain ⟨hA, rfl⟩ := dense hend hdense
    rw [List.append_nil, hm]
    exact dense_pour hA (tight hne)

/-- Fresh entries behind `A`: what the copy loop starts from. -/
theorem Prepared.inserted {s q t : Ctx} {A B : List Word} {nb : Nat} {fresh : List Nat}
    (i : Inserted q t A B nb fresh) (disk : q.disk = s.disk) (sbi : q.sbi = s.sbi)
    (node : q.node = s.node) :
    Prepared s t (A ++ B) fresh (A ++ freshEntries fresh ++ B) := by
  refine ⟨i.shape, sbi ▸ i.allocated, ?_, ?_, ⟨_, node ▸ i.node⟩, ?_⟩
  · simp only [numbers_append, i.numbers, List.append_assoc]
    exact List.Perm.append_left _ List.perm_append_comm
  · intro b hb _
    rw [i.frame.disk b (by rw [node]; exact hb), disk]
  · have hne : ∀ f ∈ A ++ B, getBlockNumber f ≠ q.node.indexBlock := by
      intro f hf
      have := i.shape.ne_index (e := f) (by
        simp only [List.mem_append] at hf ⊢
        tauto)
      rw [i.frame.index] at this
      exact this
    have hkeep : ∀ fs, (∀ f ∈ fs, f ∈ A ++ B) → bytesOf t.disk fs = bytesOf s.disk fs := by
      intro fs hfs
      apply bytesOf_congr
      intro f hf
      rw [i.frame.disk _ (hne f (hfs f hf)), disk]
    simp only [bytesOf_append, bytesOf_of_sizes_zero _ (freshEntries_size fresh),
      List.append_nil]
    rw [hkeep A (fun f hf => by simp [hf]), hkeep B (fun f hf => by simp [hf])]

/-- The content cut inside an entry. -/
theorem Prepared.moved {s t u : Ctx} {es A M Z : List Word} {e f : Word} {lp : Nat}
    {fresh : List Nat} (p : Prepared s t es fresh (A ++ e :: M ++ f :: Z))
    (zero : getBlockSize f = 0) (middle : ∀ g ∈ M, getBlockSize g = 0)
    (mv : Moved t u A e M f Z lp) :
    Prepared s u es fresh (A ++ (setBlockSize e lp :: M) ++
      setBlockSize f ((getBlockSize e - lp : Nat) : Int) :: Z) := by
  obtain ⟨n, hn⟩ := p.node
  have hnum : numbers (A ++ (setBlockSize e lp :: M) ++
      setBlockSize f ((getBlockSize e - lp : Nat) : Int) :: Z) =
        numbers (A ++ e :: M ++ f :: Z) := by simp
  refine ⟨by simpa using mv.exchanged.shape, ?_, hnum ▸ p.blocks, ?_,
    ⟨n, by rw [mv.exchanged.frame.node, hn]⟩, ?_⟩
  · rw [mv.exchanged.frame.sbi]
    exact p.allocated
  · intro b hb hbn
    rw [hnum] at hbn
    rw [mv.exchanged.frame.disk b (by rw [hn]; exact hb), p.frame b hb hbn]
    simp only [numbers_append, numbers_cons, numbers_nil, List.mem_append, List.mem_cons,
      List.not_mem_nil, or_false, not_or] at hbn ⊢
    tauto
  · have hold := p.bytes
    simp only [bytesOf_append, bytesOf_cons, entryBytes, zero, slice_zero, List.nil_append,
      bytesOf_of_sizes_zero _ middle, List.append_nil] at hold
    rw [← hold]
    simp only [bytesOf_append, bytesOf_cons, mv.front, mv.back,
      bytesOf_of_sizes_zero _ middle, List.append_nil, List.append_assoc]
    rw [mv.exchanged.others A (fun g hg => by simp [hg]), mv.exchanged.others Z (fun g hg => by simp [hg]),
      ← List.append_assoc (List.take lp _), List.take_append_drop]
    rfl

/-- The number of blocks `size` bytes need beyond the one they start in at `lp`. -/
def dataBlocks (size lp : Nat) : Nat :=
  idivCeil ((max ((size : Int) - ((blockSize : Int) - lp)) 0).toNat) blockSize

theorem dataBlocks_spec (size : Nat) {lp : Nat} (h : lp ≤ 4096) :
    size ≤ 4096 - lp + 4096 * dataBlocks size lp ∧
      (0 < dataBlocks size lp → 4096 - lp + 4096 * (dataBlocks size lp - 1) < size) := by
  have hrest : (max ((size : Int) - ((blockSize : Int) - lp)) 0).toNat =
      size - (4096 - lp) := by
    simp only [blockSize]
    omega
  have hge := idivCeil_mul_ge (size - (4096 - lp)) (b := 4096) (by decide)
  have hlt := idivCeil_pred_mul_lt (a := size - (4096 - lp)) (b := 4096) (by decide)
  unfold dataBlocks
  rw [hrest, blockSize]
  constructor
  · omega
  · intro hpos
    have := hlt hpos
    omega

section Cursor

variable {s : Ctx} {A B : List Word} {e : Word} {lp : Nat} {buff : List Byte}

/-- The copy loop from the entry `e` on, over exactly the blocks the data needs. -/
theorem Prepared.copy {t : Ctx} {es F Z : List Word} {fresh : List Nat}
    (p : Prepared s t es fresh (A ++ (e :: F) ++ Z)) (hlp : getBlockSize e = lp)
    (zero : ∀ f ∈ F, getBlockSize f = 0) (count : F.length = dataBlocks buff.length lp)
    (positive : (∀ e ∈ es, 0 < getBlockSize e) →
      (∀ e ∈ A, 0 < getBlockSize e) ∧ (∀ e ∈ Z, 0 < getBlockSize e))
    (dense : total es ≤ total A + lp → Dense es →
      (∀ e ∈ A, getBlockSize e = 4096) ∧ Z = []) :
    ∃ es' m, Outcome s es (total A + lp) buff fresh es' m
      (lightWriteLoop buff (i32 ((t.node.iBlocks : Int) - 1) - A.length).toNat t A.length lp
        buff.length) := by
  have hs := getBlockSize_le e
  obtain ⟨hfits, hneed⟩ := @dataBlocks_spec buff.length lp (by omega)
  rw [← count] at hfits hneed
  have hcap : capacity (e :: F) = 4096 - lp + 4096 * F.length := by
    rw [capacity_cons, capacity_of_sizes_zero zero, hlp]
  have hloop : (e :: F).length ≤ (i32 ((t.node.iBlocks : Int) - 1) - A.length).toNat := by
    rw [p.shape.nbBlocks]
    simp only [List.length_append, List.length_cons]
    omega
  obtain ⟨m, hm⟩ := lightWriteLoop_spec buff (e :: F) A Z t _ lp buff.length p.shape hloop
    (by intro f hf; cases hf; exact hlp.symm) zero (le_refl _) (by rw [hcap]; exact hfits)
  refine ⟨_, m, p.copied ?_ hm ?_ positive dense⟩
  · rw [total_cons, total_of_sizes_zero zero, hlp, Nat.add_zero]
  · intro hne
    have hpos : 0 < buff.length := List.length_pos_iff.mpr hne
    apply tight_cons zero hpos
    · intro hF
      rw [hlp]
      exact hneed (List.length_pos_iff.mpr hF)
    · rw [hlp]
      exact hfits

/-- The cursor is inside the entry: its tail goes to the last fresh block. -/
theorem Prepared.split {t : Ctx} {es : List Word} {F : List Nat} {x : Nat}
    (p : Prepared s t es (F ++ [x]) (A ++ [e] ++ freshEntries (F ++ [x]) ++ B))
    (hlp : lp < getBlockSize e) (count : F.length = dataBlocks buff.length lp)
    (positive : (∀ e ∈ es, 0 < getBlockSize e) →
      (∀ e ∈ A, 0 < getBlockSize e) ∧ (∀ e ∈ B, 0 < getBlockSize e))
    (before : total A + lp < total es) :
    ∃ es' m, Outcome s es (total A + lp) buff (F ++ [x]) es' m
      (let r := moveOldContentTo t A.length (A.length + (F.length + 1)) lp
       if r.2 < 0 then (r.1, r.2, buff.length) else
       lightWriteLoop buff (i32 ((r.1.node.iBlocks : Int) - 1) - A.length).toNat r.1 A.length lp
         buff.length) := by
  have hs := getBlockSize_le e
  have hlist : A ++ [e] ++ freshEntries (F ++ [x]) ++ B =
      A ++ e :: freshEntries F ++ freshEntry x :: B := by
    simp [freshEntries]
  rw [hlist] at p
  have hto : A.length + (F.length + 1) = A.length + 1 + (freshEntries F).length := by
    rw [freshEntries_length]
    omega
  rw [hto]
  rcases moveOldContentTo_spec p.shape (Nat.le_of_lt hlp) with
    ⟨_, u, hrun, hdisk, hsbi, hnode⟩ | ⟨_, u, hrun, hmoved⟩
  · have hp : Prepared s u es (F ++ [x]) (A ++ e :: freshEntries F ++ freshEntry x :: B) := by
      refine ⟨p.shape.congr ?_ (by rw [hnode]) (by rw [hnode]), hsbi ▸ p.allocated, p.blocks,
        hdisk ▸ p.frame, hnode ▸ p.node, hdisk ▸ p.bytes⟩
      intro i _
      exact blocks_congr (by rw [hnode]) (by rw [hdisk]) i
    rw [hrun]
    exact ⟨_, 0, hp.stop _ buff (Or.inl (show -errIo < 0 by decide))⟩
  · have hp := p.moved (getBlockSize_freshEntry x) (freshEntries_size F) hmoved
    obtain ⟨es', m, ho⟩ := Prepared.copy hp
      (getBlockSize_setBlockSize_nat e (show lp ≤ 4096 by omega)) (freshEntries_size F)
      (by rw [freshEntries_length]; exact count) (by
        intro hpos
        refine ⟨(positive hpos).1, ?_⟩
        intro f hf
        rcases List.mem_cons.mp hf with rfl | hf
        · rw [getBlockSize_setBlockSize_nat _ (show getBlockSize e - lp ≤ 4096 by omega)]
          omega
        · exact (positive hpos).2 f hf) (fun hend => absurd before (Nat.not_lt.mpr hend))
    rw [hrun]
    exact ⟨es', m, ho⟩

/-- The shift behind the entry at the cursor, by the entries behind it. -/
theorem shift_behind {nb : Nat} {shift : Bool} {lastBli : Nat} (hshift : shift = true ↔ B ≠ [])
    (hlast : B ≠ [] → lastBli = A.length + B.length) :
    (if shift = true ∧ nb > 0 then shiftBlocks s (A.length + 1) nb lastBli else s) =
      if B ≠ [] ∧ nb > 0 then shiftBlocks s (A ++ [e]).length nb ((A ++ [e]).length + B.length - 1)
      else s := by
  have hlenA : (A ++ [e]).length = A.length + 1 := by simp
  rw [hlenA]
  by_cases hB : B = []
  · have : shift ≠ true := fun h => hshift.mp h hB
    simp [hB, this]
  · have hsh : shift = true := hshift.mpr hB
    have hlb := hlast hB
    have : A.length + 1 + B.length - 1 = lastBli := by omega
    simp only [hsh, hB, this, ne_eq, not_false_eq_true]

/-- The insertion at a cursor inside or at the end of an allocated block. -/
theorem lightWriteInsert_inside (shape : Shape s (A ++ e :: B)) (held : Held s (A ++ e :: B))
    (hlp : lp ≤ getBlockSize e) (small : buff.length ≤ 4194304) {move shift : Bool}
    (hmove : move = decide (lp < getBlockSize e))
    (addr : Addressable s.sbi (dataBlocks buff.length lp + move.toNat))
    {lastBli : Nat} (hshift : shift = true ↔ B ≠ [])
    (hlast : B ≠ [] → lastBli = A.length + B.length) :
    ∃ fresh es' m, Outcome s (A ++ e :: B) (total A + lp) buff fresh es' m
      (lightWriteInsert s buff A.length lp move shift lastBli) := by
  have hs := getBlockSize_le e
  have hused : Used s.sbi (getBlockNumber e) := held.data _ (by simp)
  have hat : (s.touch A.length).blocks A.length = e := shape.blocks_at
  have hnz : e ≠ 0 := ne_zero_of_getBlockNumber_pos hused.pos
  obtain ⟨_, hneed⟩ := @dataBlocks_spec buff.length lp (by omega)
  obtain ⟨nb, hnb⟩ : ∃ nb, nb = dataBlocks buff.length lp + move.toNat := ⟨_, rfl⟩
  have hnbd : nb ≤ dataBlocks buff.length lp + 1 := by
    rw [hnb]
    exact Nat.add_le_add_left (Bool.toNat_le _) _
  rw [← hnb] at addr
  unfold lightWriteInsert
  simp only [hat, hnz, if_false]
  rw [← dataBlocks, ← hnb]
  have shape0 : Shape (s.touch A.length) (A ++ e :: B) := shape.congr (fun _ _ => rfl) rfl rfl
  by_cases hspace : spaceAvailable (s.touch A.length) nb < 0
  · rw [if_pos hspace]
    have hp : Prepared s (s.touch A.length) (A ++ e :: B) [] (A ++ e :: B) :=
      Prepared.refl shape held.ok rfl rfl rfl
    exact ⟨[], _, 0, hp.stop _ buff (Or.inl (show -errNospc < 0 by decide))⟩
  rw [if_neg hspace]
  rw [spaceAvailable_neg_iff shape0 (by omega)] at hspace
  simp only [List.length_append, List.length_cons, not_or, Nat.not_lt] at hspace
  -- the hole behind the entry at the cursor
  have hsplit : (A ++ [e]) ++ B = A ++ e :: B := by simp
  have hlenA : (A ++ [e]).length = A.length + 1 := by simp
  obtain ⟨fresh, hins⟩ := insert_fresh (s := s.touch A.length) (A := A ++ [e]) (B := B)
    (hsplit ▸ shape0) (hsplit ▸ ⟨held.ok, held.data, held.index⟩)
    addr (by rw [hlenA]; omega) hspace.2
  have hif := @shift_behind (s.touch A.length) A B e nb shift lastBli hshift hlast
  rw [hif, ← hlenA]
  obtain ⟨t, ht⟩ : ∃ t, t = (reserveEmptyBlocks (A ++ [e]).length nb
      (if B ≠ [] ∧ nb > 0 then shiftBlocks (s.touch A.length) (A ++ [e]).length nb
        ((A ++ [e]).length + B.length - 1) else s.touch A.length)).1 := ⟨_, rfl⟩
  rw [← ht] at hins ⊢
  have hprep := Prepared.inserted (s := s) hins rfl rfl rfl
  rw [hsplit] at hprep
  have hlf := hins.length
  have hfront : (∀ f ∈ A ++ e :: B, 0 < getBlockSize f) →
      (∀ f ∈ A, 0 < getBlockSize f) ∧ (∀ f ∈ B, 0 < getBlockSize f) := fun h =>
    ⟨fun f hf => h f (by simp [hf]), fun f hf => h f (by simp [hf])⟩
  by_cases hin : lp < getBlockSize e
  · have hm : move = true := by rw [hmove, decide_eq_true hin]
    rw [hm] at hnb
    simp only [hm, if_true]
    obtain ⟨F, x, rfl⟩ : ∃ F x, fresh = F ++ [x] := by
      have hne : fresh ≠ [] := by
        intro hnil
        rw [hnil] at hlf
        simp at hnb hlf
        omega
      exact ⟨fresh.dropLast, fresh.getLast hne, (List.dropLast_append_getLast hne).symm⟩
    rw [← hlf, List.length_append, List.length_singleton]
    refine ⟨_, hprep.split hin ?_ hfront ?_⟩
    · simp at hnb hlf
      omega
    · simp only [total_append, total_cons]
      omega
  · have hm : move = false := by rw [hmove, decide_eq_false hin]
    rw [hm] at hnb
    simp only [hm, Bool.false_eq_true, if_false, lt_irrefl]
    refine ⟨fresh, Prepared.copy (A := A) (e := e) (F := freshEntries fresh) (Z := B) ?_ (by omega)
      (freshEntries_size fresh) ?_ hfront ?_⟩
    · simpa using hprep
    · rw [freshEntries_length, hlf, hnb]
      simp
    · intro hend hdense
      have hB : B = [] := by
        cases B with
        | nil => rfl
        | cons f B =>
          have hf := hdense.positive f (by simp)
          simp only [total_append, total_cons] at hend
          omega
      subst hB
      refine ⟨fun f hf => hdense.full f ?_, rfl⟩
      rw [List.dropLast_concat]
      exact hf

/-- The insertion into a new block behind the last one. With all slots taken,
the word behind the index decides between an error and a write of nothing. -/
theorem lightWriteInsert_behind {es : List Word} (shape : Shape s es) (held : Held s es)
    (small : buff.length ≤ 4194304)
    (addr : Addressable s.sbi (dataBlocks buff.length 0 + 1))
    (last : ∀ e, es.getLast? = some e → getBlockSize e = 4096) :
    ∃ fresh es' m, Outcome s es (total es) buff fresh es' m
      (lightWriteInsert s buff es.length 0 false false 0) := by
  obtain ⟨d, hd⟩ : ∃ d, d = dataBlocks buff.length 0 := ⟨_, rfl⟩
  obtain ⟨_, hneed⟩ := @dataBlocks_spec buff.length 0 (by omega)
  rw [← hd] at hneed addr
  have hle := shape.length_le
  obtain ⟨q, hq⟩ : ∃ q, q = s.touch es.length := ⟨_, rfl⟩
  have shape0 : Shape q es := by
    rw [hq]
    exact shape.congr (fun _ _ => rfl) rfl rfl
  have hsame : Prepared s q es [] es := by
    rw [hq]
    exact Prepared.refl shape held.ok rfl rfl rfl
  unfold lightWriteInsert
  simp only [Bool.toNat_false, Nat.add_zero, Bool.false_eq_true, false_and, if_false, lt_irrefl]
  rw [← dataBlocks, ← hd, ← hq]
  by_cases hfull : es.length = 1024
  · -- no slot is left, so at most zero blocks pass the check
    by_cases hspace : spaceAvailable q (if q.blocks es.length = 0 then d + 1 else d) < 0
    · rw [if_pos hspace]
      exact ⟨[], es, 0, hsame.stop _ buff (Or.inl (show -errNospc < 0 by decide))⟩
    rw [if_neg hspace]
    rw [spaceAvailable_neg_iff shape0 (by split <;> omega)] at hspace
    have hzero : (if q.blocks es.length = 0 then d + 1 else d) = 0 := by omega
    have hcount : (i32 ((q.node.iBlocks : Int) - 1) - es.length).toNat = 0 := by
      rw [shape0.nbBlocks]
      omega
    rw [hzero]
    simp only [reserveEmptyBlocks, hcount, lightWriteLoop]
    exact ⟨[], es, 0, hsame.stop _ buff (Or.inr ⟨rfl, hfull⟩)⟩
  have hat : q.blocks es.length = 0 := by
    rw [shape0.slots _ (by omega)]
    simp
  simp only [hat, if_true]
  by_cases hspace : spaceAvailable q (d + 1) < 0
  · rw [if_pos hspace]
    exact ⟨[], es, 0, hsame.stop _ buff (Or.inl (show -errNospc < 0 by decide))⟩
  rw [if_neg hspace]
  rw [spaceAvailable_neg_iff shape0 (by omega)] at hspace
  simp only [not_or, Nat.not_lt] at hspace
  have hnil : es ++ [] = es := List.append_nil es
  have hsbi : q.sbi = s.sbi := by rw [hq]; rfl
  have held0 : Held q es := by
    rw [hq]
    exact ⟨held.ok, held.data, held.index⟩
  obtain ⟨fresh, hins⟩ := insert_fresh (s := q) (A := es) (B := []) (hnil.symm ▸ shape0)
    (hnil.symm ▸ held0) (hsbi ▸ addr) (by simp; omega) hspace.2
  simp only [ne_eq, not_true_eq_false, false_and, if_false] at hins
  have hprep : Prepared s (reserveEmptyBlocks es.length (d + 1) q).1 es fresh
      (es ++ freshEntries fresh) := by
    have := Prepared.inserted (s := s) hins (by rw [hq]; rfl) hsbi (by rw [hq]; rfl)
    simpa using this
  obtain ⟨x, F, rfl⟩ : ∃ x F, fresh = x :: F := by
    cases hf : fresh with
    | nil =>
      have := hins.length
      simp [hf] at this
    | cons x F => exact ⟨x, F, rfl⟩
  have hF : F.length = d := by simpa using hins.length
  have hlist : es ++ freshEntries (x :: F) = es ++ (freshEntry x :: freshEntries F) ++ [] := by
    simp [freshEntries]
  rw [hlist] at hprep
  exact ⟨x :: F, hprep.copy (getBlockSize_freshEntry x) (freshEntries_size F)
    (by rw [freshEntries_length, hF, hd]) (fun h => ⟨h, by simp⟩)
    (fun _ hdense => ⟨hdense.all_full last, rfl⟩)⟩

end Cursor

end Insert
