import OuicheFs.LightWrite
import OuicheFs.Compaction
import OuicheFs.Read
import Mathlib.Logic.Relation

/-!
# Runs of calls on one insert-mode file

A new file goes through any number of writes with insertion and
defragmentations. Each call comes with its own outcomes of disk reads and user
copies. The index, the sizes and the counters stay in agreement whatever fails.
-/
namespace FileRun

open Bits CInt ByteBuffer IndexEntry Allocator FileContext Layout OuicheWrite OuicheDefrag OuicheRead
  LightWrite Compaction Overlap

/-- One call on the open file. -/
inductive FileStep : Ctx → Ctx → Prop
  | lightWrite (s : Ctx) (io : Io) (fFlags pos : Nat) (data : List Byte) :
      FileStep s (ouichefsLightWrite { s with io := io } fFlags data pos).ctx
  | defrag (s : Ctx) (io : Io) (fuel : Nat) (r : Ctx × Int) :
      ouichefsDefrag fuel { s with io := io } = some r → FileStep s r.1

/-- A file as `ouichefs_create` leaves it, on a volume in order. -/
structure NewFile (s : Ctx) : Prop where
  iBlocks : s.node.iBlocks = 1
  iSize : s.node.iSize = 0
  zero : ∀ i, i < 1024 → s.blocks i = 0
  volume : BlocksOk s.sbi
  index : Used s.sbi s.node.indexBlock

/-- The invariant of a run. -/
structure FileInv (s : Ctx) (es : List Word) : Prop where
  shape : Shape s es
  held : Held s es
  size : s.node.iSize = total es
  small : s.sbi.nrBlocks ≤ 524288

theorem NewFile.shape {s : Ctx} (h : NewFile s) : Shape s [] := by
  refine ⟨by simp, ?_, h.iBlocks, by simp, by simp⟩
  intro i hi
  rw [h.zero i hi]
  rfl

theorem NewFile.held {s : Ctx} (h : NewFile s) : Held s [] := ⟨h.volume, by simp, h.index⟩

theorem NewFile.inv {s : Ctx} (h : NewFile s) (small : s.sbi.nrBlocks ≤ 524288) : FileInv s [] :=
  ⟨h.shape, h.held, h.iSize, small⟩

section

variable {s : Ctx} {es : List Word}

/-- The outcomes of a call do not belong to the file. -/
theorem FileInv.withIo (h : FileInv s es) (io : Io) : FileInv { s with io := io } es :=
  ⟨h.shape.congr (fun _ _ => rfl) rfl rfl, ⟨h.held.ok, h.held.data, h.held.index⟩, h.size, h.small⟩

theorem Written.inv {pos : Nat} {buff g : List Byte} {fresh : List Nat} {es' : List Word} {m : Nat}
    {r : WriteResult} (w : Written s es pos buff fresh es' g m r)
    (small : s.sbi.nrBlocks ≤ 524288) : FileInv r.ctx es' :=
  ⟨w.shape, w.held, w.size, by rw [w.allocated.layout.nrBlocks]; exact small⟩

theorem Kept.held {t : Ctx} {es' : List Word} {rest : List Nat} (k : Kept s es t es' rest)
    (h : Held s es) : Held t es' := by
  refine ⟨?_, ?_, ?_⟩
  · rw [k.sbi]
    exact h.ok
  · intro b hb
    rw [k.sbi]
    exact h.data b (k.blocks.mem_iff.mp hb)
  · rw [k.sbi, k.node]
    exact h.index

theorem Compacted.held {t : Ctx} {es' : List Word} {freed : List Nat}
    (c : Compacted s es t es' freed) (h : Held s es) (shape : Shape s es) : Held t es' := by
  obtain ⟨n, mt, ct, hnode⟩ := c.node
  have hsub : ∀ b ∈ freed, b ∈ numbers es := fun b hb =>
    c.blocks.mem_iff.mp (List.mem_append_right _ hb)
  have hnodup : (numbers es' ++ freed).Nodup := c.blocks.nodup_iff.mpr shape.distinct
  obtain ⟨_, hfn, hdis⟩ := List.nodup_append.mp hnodup
  refine ⟨?_, ?_, ?_⟩
  · exact c.released.blocksOk h.ok hfn (fun b hb => h.data b (hsub b hb))
  · intro b hb
    exact c.released.used (h.data b (c.blocks.mem_iff.mp (List.mem_append_left _ hb)))
      (fun hf => hdis b hb b hf rfl)
  · rw [hnode]
    refine c.released.used h.index fun hf => ?_
    exact shape.apart (hsub _ hf)

theorem Kept.inv {t : Ctx} {es' : List Word} {rest : List Nat} (k : Kept s es t es' rest)
    (h : FileInv s es) : FileInv t es' := by
  refine ⟨k.shape, Kept.held k h.held, ?_, ?_⟩
  · rw [k.node, h.size, k.size]
  · rw [k.sbi]
    exact h.small

theorem Compacted.inv {t : Ctx} {es' : List Word} {freed : List Nat}
    (c : Compacted s es t es' freed) (h : FileInv s es) : FileInv t es' := by
  obtain ⟨n, mt, ct, hnode⟩ := c.node
  refine ⟨c.shape, Compacted.held c h.held h.shape, ?_, ?_⟩
  · rw [c.size, hnode]
    exact h.size
  · rw [c.released.layout.nrBlocks]
    exact h.small

/-- A call as the rest of the volume sees it: which bytes it leaves alone, which
blocks it takes and which it gives back. -/
structure Effect (s : Ctx) (es : List Word) (t : Ctx) (es' : List Word) : Prop where
  inv : FileInv t es'
  layout : SameLayout s.sbi t.sbi
  inodes : t.sbi.ifreeBitmap = s.sbi.ifreeBitmap
  index : t.node.indexBlock = s.node.indexBlock
  mode : t.node.iMode = s.node.iMode
  nlink : t.node.iNlink = s.node.iNlink
  frame : ∀ b, b ≠ s.node.indexBlock → b ∉ numbers es → b ∉ numbers es' → t.disk b = s.disk b
  new : ∀ b ∈ numbers es', b ∈ numbers es ∨ b < s.sbi.nrBlocks ∧ s.sbi.bfreeBitmap b = true
  free : ∀ b, t.sbi.bfreeBitmap b = true ↔
    (s.sbi.bfreeBitmap b = true ∨ b ∈ numbers es) ∧ b ∉ numbers es'
  count : t.sbi.nrFreeBlocks + es'.length = s.sbi.nrFreeBlocks + es.length

theorem Effect.ofIo {t : Ctx} {es' : List Word} {io : Io}
    (e : Effect { s with io := io } es t es') : Effect s es t es' :=
  ⟨e.inv, e.layout, e.inodes, e.index, e.mode, e.nlink, e.frame, e.new, e.free, e.count⟩

theorem Written.effect {pos : Nat} {buff g : List Byte} {fresh : List Nat} {es' : List Word}
    {m : Nat} {r : WriteResult} (w : Written s es pos buff fresh es' g m r) (h : FileInv s es) :
    Effect s es r.ctx es' := by
  obtain ⟨n, k, mt, ct, hnode⟩ := w.node
  have hmem : ∀ b, b ∈ numbers es' ↔ b ∈ numbers es ∨ b ∈ fresh := by
    intro b
    rw [w.blocks.mem_iff, List.mem_append]
  refine ⟨Written.inv w h.small, w.allocated.layout, w.allocated.inodes.1, by rw [hnode],
    by rw [hnode], by rw [hnode], fun b hi _ hb => w.frame b hi hb, ?_, ?_, ?_⟩
  · intro b hb
    rcases (hmem b).mp hb with hold | hnew
    · exact Or.inl hold
    · exact Or.inr (w.allocated.were_free b hnew).2
  · intro b
    rw [w.allocated.bitmap b, hmem]
    constructor
    · intro hfree
      simp only [Bool.and_eq_true, Bool.not_eq_true', decide_eq_false_iff_not] at hfree
      refine ⟨Or.inl hfree.1, ?_⟩
      rintro (hold | hnew)
      · have := (h.held.data b hold).taken
        rw [hfree.1] at this
        cases this
      · exact hfree.2 hnew
    · rintro ⟨hfree | hold, hnot⟩
      · have hf : b ∉ fresh := fun hf => hnot (Or.inr hf)
        simp [hfree, hf]
      · exact absurd (Or.inl hold) hnot
  · have hlen := w.blocks.length_eq
    have hcount := w.allocated.count
    simp only [numbers, List.length_map, List.length_append] at hlen
    omega

theorem Kept.effect {t : Ctx} {es' : List Word} {rest : List Nat} (k : Kept s es t es' rest)
    (h : FileInv s es) : Effect s es t es' := by
  refine ⟨Kept.inv k h, k.sbi ▸ SameLayout.refl s.sbi, by rw [k.sbi], by rw [k.node],
    by rw [k.node], by rw [k.node], fun b hi hb _ => k.frame b hi hb, ?_, ?_, ?_⟩
  · exact fun b hb => Or.inl (k.blocks.mem_iff.mp hb)
  · intro b
    rw [k.sbi, k.blocks.mem_iff]
    constructor
    · intro hfree
      refine ⟨Or.inl hfree, fun hb => ?_⟩
      have := (h.held.data b hb).taken
      rw [hfree] at this
      cases this
    · rintro ⟨hfree | hb, hnot⟩
      · exact hfree
      · exact absurd hb hnot
  · have hlen := k.blocks.length_eq
    simp only [numbers, List.length_map] at hlen
    rw [k.sbi, hlen]

theorem Compacted.effect {t : Ctx} {es' : List Word} {freed : List Nat}
    (c : Compacted s es t es' freed) (h : FileInv s es) : Effect s es t es' := by
  obtain ⟨n, mt, ct, hnode⟩ := c.node
  have hmem : ∀ b, b ∈ numbers es ↔ b ∈ numbers es' ∨ b ∈ freed := by
    intro b
    rw [← c.blocks.mem_iff, List.mem_append]
  have hnodup : (numbers es' ++ freed).Nodup := c.blocks.nodup_iff.mpr h.shape.distinct
  have hdis := (List.nodup_append.mp hnodup).2.2
  refine ⟨Compacted.inv c h, c.released.layout, c.released.inodes.1, by rw [hnode], by rw [hnode],
    by rw [hnode], fun b hi hb _ => c.frame b hi hb, fun b hb => Or.inl ((hmem b).mpr (Or.inl hb)), ?_, ?_⟩
  · intro b
    rw [c.released.bitmap b, hmem, Bool.or_eq_true, decide_eq_true_iff]
    constructor
    · rintro (hfree | hf)
      · refine ⟨Or.inl hfree, fun hb => ?_⟩
        have := (h.held.data b ((hmem b).mpr (Or.inl hb))).taken
        rw [hfree] at this
        cases this
      · exact ⟨Or.inr (Or.inr hf), fun hb => hdis b hb b hf rfl⟩
    · rintro ⟨hfree | hb | hf, hnot⟩
      · exact Or.inl hfree
      · exact absurd hb hnot
      · exact Or.inr hf
  · have hlen := c.blocks.length_eq
    simp only [numbers, List.length_map, List.length_append] at hlen
    -- the counter is far from wrapping around on a volume of this size
    have hfree := h.held.ok.counter
    have hle := popcount_le s.sbi.bfreeBitmap s.sbi.nrBlocks
    have hl := h.shape.length_le
    have hsmall := h.small
    have hcount := c.released.count (by omega)
    omega

/-- What a defragmentation leaves, complete or not. -/
structure Tidied (s : Ctx) (es : List Word) (t : Ctx) (es' : List Word) : Prop where
  effect : Effect s es t es'
  size : total es' = total es
  bytes : Drainable s → bytesOf t.disk es' = bytesOf s.disk es
  drainable : Drainable s → Drainable t
  fewer : es'.length ≤ es.length
  iSize : t.node.iSize = s.node.iSize
  inodeCount : t.sbi.nrFreeInodes = s.sbi.nrFreeInodes

theorem Compacted.tidied {t : Ctx} {es' : List Word} {freed : List Nat}
    (c : Compacted s es t es' freed) (h : FileInv s es) : Tidied s es t es' := by
  obtain ⟨n, mt, ct, hnode⟩ := c.node
  refine ⟨Compacted.effect c h, c.size, fun hd => ?_, fun _ => ?_, ?_, by rw [hnode],
    c.released.inodes.2⟩
  · exact c.bytes.eq (h.shape.entries_eq ▸ hd.unspoilt [])
  · refine (drainable_iff_unspoilt t).mpr fun P => ?_
    rw [c.shape.entries_eq]
    exact unspoilt_of_full c.full P
  · have hlen := c.blocks.length_eq
    simp only [numbers, List.length_map, List.length_append] at hlen
    omega

theorem Stopped.tidied {t : Ctx} (stopped : Stopped s es t) (h : FileInv s es) :
    t.node = s.node ∧ ∃ es', Tidied s es t es' := by
  obtain ⟨es', rest, _, hk, hfilled⟩ := stopped
  refine ⟨hk.node, es', Kept.effect hk h, hk.size, fun hd => ?_, fun hd => ?_, ?_, by rw [hk.node],
    by rw [hk.sbi]⟩
  · exact hk.bytes.eq (h.shape.entries_eq ▸ hd.unspoilt rest)
  · rw [drainable_iff hk.shape]
    exact ((drainable_iff h.shape).mp hd).filled hfilled held_le
  · have hlen := hk.blocks.length_eq
    simp only [numbers, List.length_map] at hlen
    omega

/-- A defragmentation that is complete leaves no room in front of the last block, one
that is not leaves the inode as it is. -/
theorem defrag_tidied {fuel : Nat} {r : Ctx × Int} (h : FileInv s es)
    (run : ouichefsDefrag fuel s = some r) : ∃ es', Tidied s es r.1 es' ∧
      (r.2 = 0 → (∀ f ∈ es'.dropLast, getBlockSize f = 4096) ∧ ∀ f ∈ es', 0 < getBlockSize f) ∧
      (r.2 ≠ 0 → r.1.node = s.node) := by
  obtain ⟨_, hpost⟩ := ouichefsDefrag_spec h.shape (fun b hb => Nat.le_of_lt (h.held.data b hb).lt)
    h.size
  rcases hpost fuel r run with ⟨hdone, es', freed, hc⟩ | ⟨hret, _, hstopped⟩
  · exact ⟨es', Compacted.tidied hc h, fun _ => ⟨hc.full, hc.positive⟩,
      fun hfail => absurd hdone hfail⟩
  · obtain ⟨hnode, es', htidied⟩ := Stopped.tidied hstopped h
    refine ⟨es', htidied, fun hdone => ?_, fun _ => hnode⟩
    rw [hret] at hdone
    exact absurd hdone (by decide)

theorem FileStep.effect {t : Ctx} (h : FileInv s es) (step : FileStep s t) :
    ∃ es', Effect s es t es' := by
  cases step with
  | lightWrite io fFlags pos data =>
    have hio := h.withIo io
    obtain ⟨fresh, es', g, m, w⟩ := ouichefsLightWrite_spec hio.shape
      hio.held hio.size fFlags (addressable_of_small hio.small _)
    exact ⟨es', Effect.ofIo (Written.effect w hio)⟩
  | defrag io fuel r hrun =>
    have hio := h.withIo io
    obtain ⟨es', htidied, _⟩ := defrag_tidied hio hrun
    exact ⟨es', Effect.ofIo htidied.effect⟩

theorem fileRun_inv {s₀ : Ctx} (new : NewFile s₀) (small : s₀.sbi.nrBlocks ≤ 524288)
    (run : Relation.ReflTransGen FileStep s₀ s) : ∃ es, FileInv s es := by
  induction run with
  | refl => exact ⟨[], new.inv small⟩
  | tail _ step ih =>
    obtain ⟨es, hinv⟩ := ih
    obtain ⟨es', heff⟩ := step.effect hinv
    exact ⟨es', heff.inv⟩

end

/-! ## Wasted space -/

theorem wastedLoop_eq {blocks : Nat → Word} (L : List Word) :
    ∀ (k acc : Nat), (∀ i, i < L.length → blocks (k + i) = L[i]?.getD 0) →
      acc + 4096 * L.length < 4294967296 →
      wastedLoop blocks L.length k acc = acc + (4096 * L.length - total L) := by
  induction L with
  | nil =>
    intro k acc _ _
    rfl
  | cons e L ih =>
    intro k acc hblocks hsmall
    have hk : blocks k = e := by simpa using hblocks 0 (by simp)
    have he := getBlockSize_le e
    have ht := total_le L
    rw [List.length_cons] at hsmall
    have hsum : u32 ((acc + (blockSize - getBlockSize e) : Nat) : Int) =
        acc + (4096 - getBlockSize e) := by
      rw [u32_natCast (by simp only [blockSize]; omega), blockSize]
    rw [List.length_cons, wastedLoop, hk, hsum, ih (k + 1) _ ?_ (by omega), total_cons]
    · omega
    · intro i hi
      have := hblocks (i + 1) (by simpa using hi)
      simpa [Nat.add_assoc, Nat.add_comm 1 i] using this

/-- The values handed to the user on an insert-mode file. -/
theorem ouichefsIoctlFileInfo_eq {s : Ctx} {es : List Word} (h : FileInv s es) {info : FileInfo}
    (run : ouichefsIoctlFileInfo s = .ok info) :
    info.nbBlocks = es.length ∧ info.wasted = 4096 * es.length - s.node.iSize := by
  have hl := h.shape.length_le
  have hn : u64 ((s.node.iBlocks : Int) - 1) = es.length := by
    have hib := h.shape.iBlocks
    rw [u64_pred (by omega) (by omega)]
    omega
  have hw : wastedLoop s.blocks es.length 0 0 = 4096 * es.length - total es := by
    rw [wastedLoop_eq es 0 0 (fun i hi => by rw [Nat.zero_add]; exact h.shape.slots i (by omega))
      (by omega), Nat.zero_add]
  unfold ouichefsIoctlFileInfo at run
  simp only [hn, hw] at run
  split at run
  · cases run
  split at run
  · cases run
  split at run
  · cases run
  cases run
  exact ⟨rfl, by rw [h.size]⟩

/-- The quantities that describe an insert-mode file agree. -/
structure Agrees (s : Ctx) : Prop where
  counted : 1 ≤ s.node.iBlocks
  count : s.node.iBlocks - 1 ≤ 1024
  nonzero : ∀ i, i < 1024 → (s.blocks i ≠ 0 ↔ i < s.node.iBlocks - 1)
  size : s.node.iSize = total s.entries
  bounded : s.node.iSize ≤ maxFilesize
  room : s.node.iSize ≤ 4096 * (s.node.iBlocks - 1)
  wasted : ∀ io info, ouichefsIoctlFileInfo { s with io := io } = .ok info →
    info.wasted = 4096 * (s.node.iBlocks - 1) - s.node.iSize
  reported : ∃ info, ouichefsIoctlFileInfo { s with io := calmIo } = .ok info

theorem FileInv.agrees {s : Ctx} {es : List Word} (h : FileInv s es) : Agrees s := by
  have hl := h.shape.length_le
  have hib := h.shape.iBlocks
  have ht := total_le es
  have wf := h.shape.wellFormed h.held.nonzero h.size
  refine ⟨by omega, wf.iBlocks_le, ?_, wf.size, ?_, ?_, ?_, ⟨_, rfl⟩⟩
  · intro i hi
    constructor
    · intro hne
      by_contra hge
      exact hne (wf.zero i (by omega) hi)
    · exact wf.nonzero i
  · rw [h.size, maxFilesize]
    omega
  · rw [h.size, hib]
    omega
  · intro io info hrun
    rw [(ouichefsIoctlFileInfo_eq (h.withIo io) hrun).2, hib]
    rfl

/-- In every run from a new file, whatever reads and copies fail, the index,
the size and the reported waste agree. -/
theorem fileRun_agrees (s₀ s : Ctx) (new : NewFile s₀) (small : s₀.sbi.nrBlocks ≤ 524288)
    (run : Relation.ReflTransGen FileStep s₀ s) : Agrees s := by
  obtain ⟨es, hinv⟩ := fileRun_inv new small run
  exact hinv.agrees

/-- A new file on a volume of a hundred blocks. -/
def freshCtx : Ctx where
  sbi := ⟨100, 102, 2, 1, 1, 100, 90, fun _ => false, fun b => decide (10 ≤ b ∧ b < 100)⟩
  disk := fun b => if b = 6 then ofWords32 (fun _ => 0) else fun _ => 65
  node := ⟨33188, 0, 0, 0, ⟨0, 0⟩, ⟨0, 0⟩, ⟨0, 0⟩, 1, 1, 6⟩
  io := calmIo
  touched := []

theorem freshCtx_new : NewFile freshCtx := by
  refine ⟨rfl, rfl, ?_, ⟨by decide, by decide +kernel, by decide⟩,
    ⟨by decide, by decide, by decide⟩⟩
  intro i _
  exact le32_ofWords32 (fun _ => 0) i

/-- The second user copy of a write of 5000 bytes fails: two blocks are taken
and 4096 bytes are recorded. -/
theorem fileRun_agrees_sample :
    ∃ s, Relation.ReflTransGen FileStep freshCtx s ∧ s.node.iBlocks = 3 ∧ Agrees s := by
  obtain ⟨t, ht⟩ : ∃ t, t = (ouichefsLightWrite { freshCtx with
      io := { calmIo with ucopy := fun n => if n = 1 then some 7 else none } } 1
      (List.replicate 5000 66) 0).ctx := ⟨_, rfl⟩
  have hstep : FileStep freshCtx t := by
    rw [ht]
    exact FileStep.lightWrite freshCtx _ 1 0 _
  have hrun : Relation.ReflTransGen FileStep freshCtx t := Relation.ReflTransGen.single hstep
  refine ⟨t, hrun, ?_, fileRun_agrees freshCtx t freshCtx_new (by decide) hrun⟩
  rw [ht]
  decide +kernel

end FileRun
