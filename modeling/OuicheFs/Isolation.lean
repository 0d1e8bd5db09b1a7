import OuicheFs.VolumeRun

/-!
# Files do not disturb each other

A write with insertion or a defragmentation of one file changes bytes only in
blocks that the file holds before or after the call, so every other inode and
everything in front of the data area stay as they are.
-/
namespace Isolation

open CInt Bits ByteBuffer IndexEntry Allocator FileContext Layout OuicheInode OuicheSuper Mkfs
  FileRun Ledger Ownership Lifecycle VolumeRun

/-- What a call on the file `a` leaves alone. -/
structure Isolated (w w' : World) (a : Nat) : Prop where
  inode : ∀ j, j ≠ a → w'.icache j = w.icache j
  live : ∀ j, j ≠ a → live w' j = live w j
  index : ∀ j node, j ≠ a → Ownership.live w j = some node →
    w'.disk node.indexBlock = w.disk node.indexBlock
  content : ∀ j node, j ≠ a → Ownership.live w j = some node → sIsreg node.iMode = true →
    (w'.ctx node calmIo).content = (w.ctx node calmIo).content
  metadata : ∀ b, b < metaEnd w.sbi → w'.disk b = w.disk b
  bitmap : ∀ b, w'.sbi.bfreeBitmap b ≠ w.sbi.bfreeBitmap b →
    (b ∈ holds w' a ∧ b ∉ holds w a) ∨ (b ∈ holds w a ∧ b ∉ holds w' a)
  counter : w'.sbi.nrFreeBlocks + (holds w' a).length = w.sbi.nrFreeBlocks + (holds w a).length

section

variable {w : World} {a : Nat} {node : Inode} {es es' : List Word} {t : Ctx}

/-- A call changes no byte outside the blocks held by its file, which are blocks
of the file before or free ones. -/
theorem disk_withCtx (hholds : holds w a = node.indexBlock :: numbers es)
    (e : Effect (w.ctx node calmIo) es t es') {b : Nat} (hb : b ∉ holds w a)
    (taken : w.sbi.bfreeBitmap b = false) : t.disk b = w.disk b := by
  rw [hholds, List.mem_cons, not_or] at hb
  refine e.frame b hb.1 hb.2 fun hmem => ?_
  rcases e.new b hmem with hold | ⟨_, hfree⟩
  · exact hb.2 hold
  · rw [show (w.ctx node calmIo).sbi = w.sbi from rfl, taken] at hfree
    cases hfree

theorem isolated_of_effect (h : WorldInv w) (own : live w a = some node)
    (reg : sIsreg node.iMode = true) (hholds : holds w a = node.indexBlock :: numbers es)
    (e : Effect (w.ctx node calmIo) es t es') : Isolated w (w.withCtx a t) a := by
  have hin : InUse t.sbi a :=
    (inUse_congr e.layout (by rw [e.inodes])).mpr (live_eq_some.mp own).1
  have hholds' := (holds_withCtx (w := w) hin e.inv.shape (by rw [e.mode]; exact reg)).2
  rw [e.index] at hholds'
  have hcache : ∀ j, j ≠ a → (w.withCtx a t).icache j = w.icache j := by
    intro j hj
    simp [World.withCtx, World.cache, hj]
  -- nothing that another inode holds is free or belongs to the file
  have hother : ∀ j b, j ≠ a → b ∈ holds w j → t.disk b = w.disk b := fun j b hj hb =>
    disk_withCtx hholds e (h.ledger.not_mem hj hb) (h.used hb).1.taken
  refine ⟨hcache, ?_, ?_, ?_, ?_, ?_, ?_⟩
  · intro j hj
    unfold live
    rw [hcache j hj]
    have hiff : InUse (w.withCtx a t).sbi j ↔ InUse w.sbi j :=
      inUse_congr e.layout (by rw [show (w.withCtx a t).sbi = t.sbi from rfl, e.inodes]; rfl)
    simp only [hiff]
  · intro j n hj hl
    exact hother j _ hj (index_mem_holds hl)
  · intro j n hj hl hreg
    obtain ⟨fs, hinv, hfs⟩ := h.fileInv hl hreg calmIo
    have hshape : Shape ((w.withCtx a t).ctx n calmIo) fs := by
      refine hinv.shape.congr (fun i _ => ?_) rfl rfl
      exact @blocks_congr (w.ctx n calmIo) ((w.withCtx a t).ctx n calmIo) rfl
        (hother j _ hj (index_mem_holds hl)) i
    rw [hshape.content_eq, hinv.shape.content_eq]
    apply bytesOf_congr
    intro f hf
    refine hother j _ hj ?_
    rw [hfs]
    exact List.mem_cons_of_mem _ (mem_numbers_of_mem hf)
  · intro b hb
    refine disk_withCtx hholds e (fun hmem => ?_) ?_
    · have := (h.used hmem).2
      omega
    · exact Bool.eq_false_iff.mpr (h.ledger.reserved_taken b hb)
  · intro b hb
    change t.sbi.bfreeBitmap b ≠ w.sbi.bfreeBitmap b at hb
    have hiff := e.free b
    rw [show (w.ctx node calmIo).sbi = w.sbi from rfl] at hiff
    cases hold : w.sbi.bfreeBitmap b with
    | true =>
      simp only [hold, ne_eq, Bool.not_eq_true] at hb
      have hnew : b ∈ numbers es' := by
        by_contra hnot
        rw [hiff.mpr ⟨Or.inl hold, hnot⟩] at hb
        cases hb
      refine Or.inl ⟨by rw [hholds']; exact List.mem_cons_of_mem _ hnew, fun hmem => ?_⟩
      rw [(h.used hmem).1.taken] at hold
      cases hold
    | false =>
      simp only [hold, ne_eq, Bool.not_eq_false] at hb
      obtain ⟨hfree | hmem, hnot⟩ := hiff.mp hb
      · rw [hold] at hfree
        cases hfree
      · have hnodup := h.ledger.nodup a
        rw [hholds, List.nodup_cons] at hnodup
        refine Or.inr ⟨by rw [hholds]; exact List.mem_cons_of_mem _ hmem, fun hnew => ?_⟩
        rw [hholds'] at hnew
        rcases List.mem_cons.mp hnew with heq | hin'
        · exact hnodup.1 (show node.indexBlock ∈ numbers es from heq ▸ hmem)
        · exact hnot hin'
  · rw [hholds, hholds']
    have hcount : t.sbi.nrFreeBlocks + es'.length = w.sbi.nrFreeBlocks + es.length := e.count
    simp only [List.length_cons, numbers, List.length_map]
    change t.sbi.nrFreeBlocks + _ = _
    omega

end

/-- On a formatted volume of at most 2^19 blocks, in every state reached, a write
with insertion or a defragmentation of a live file disturbs no other inode. -/
theorem fileStep_isolated (ok : Nat → Bool) (stSize : Nat) (disk image : Store) (who : Caller)
    (readable : Nat → Bool) (memory : Fin 4 → Bool) (w₀ w : World)
    (formatted : mkfs ok stSize disk = some image)
    (mount : ouichefsFillSuper image who readable memory = .ok w₀)
    (small : stSize / 4096 ≤ 524288) (run : Relation.ReflTransGen Step w₀ w)
    (a : Nat) (node : Inode) (own : live w a = some node) (reg : sIsreg node.iMode = true)
    (t : Ctx) (call : FileStep (w.ctx node calmIo) t) : Isolated w (w.withCtx a t) a := by
  have h := run_inv (formatted_inv formatted mount small) run
  obtain ⟨es, hinv, hholds⟩ := h.fileInv own reg calmIo
  obtain ⟨es', heff⟩ := call.effect hinv
  exact isolated_of_effect h own reg hholds heff

/-- Two bytes are written to the first file of a volume of 100 blocks. -/
theorem fileStep_isolated_created : ∃ w node t, live w 2 = some node ∧
    FileStep (w.ctx node calmIo) t ∧ Isolated w (w.withCtx 2 t) 2 := by
  obtain ⟨image, w₀, d, r, node, himage, hw₀, hdir, hrun, hlive, hreg⟩ := sampleRun_create
  have hstep := Step.create w₀ _ calmIo 1 d _ _ r hdir (fun _ => rfl) hrun
  have hcall := FileStep.lightWrite (r.1.ctx node calmIo) calmIo 1 0 [66, 67]
  exact ⟨r.1, node, _, hlive, hcall, fileStep_isolated _ _ _ _ _ _ _ _ _ himage hw₀ (by decide)
    (.single hstep) 2 node hlive hreg _ hcall⟩

end Isolation
