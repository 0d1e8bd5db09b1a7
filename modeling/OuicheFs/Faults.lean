import OuicheFs.GapRun
import OuicheFs.Remount

/-!
# Reads that fail

Any read may fail in any call on directories and files, and the files may be in
either format. Blocks may get lost then, but none is used twice, and every file but
the one a call is about stays as it is.
-/
namespace Faults

open CInt Bits ByteBuffer IndexEntry Allocator FileContext Layout OuicheFile OuicheWrite OuicheDefrag
  OuicheInode OuicheSuper OuicheSync Mkfs LightWrite Compaction FileRun Ledger Ownership Lifecycle
  VolumeRun PlainWrite WholeVolume Remount Sharing GapRun

/-- What holds whatever fails. -/
structure FaultInv (w : World) : Prop where
  shared : SharedInv w
  areas : Areas w.sbi
  reserved : ∀ b, b < metaEnd w.sbi → w.sbi.bfreeBitmap b = false
  data : ∀ i, ∀ b ∈ holds w i, metaEnd w.sbi ≤ b

/-- A change that concerns the inode `i` alone: it leaves that inode in order, takes
free blocks and gives back its own. -/
structure Dealt (w w' : World) (i : Nat) : Prop where
  layout : SameLayout w.sbi w'.sbi
  blocks : BlocksOk w'.sbi
  others : ∀ j, j ≠ i → Kept w w' j
  frame : ∀ j n, j ≠ i → live w j = some n → sIsreg n.iMode = true →
    ∀ b ∈ holds w j, w'.disk b = w.disk b
  cached : InUse w'.sbi i → ∃ node, w'.icache i = some node
  settled : ∀ node, live w' i = some node → Settled w' node
  nodup : (holds w' i).Nodup
  new : ∀ b ∈ holds w' i, b ∈ holds w i ∨ b < w.sbi.nrBlocks ∧ w.sbi.bfreeBitmap b = true
  free : ∀ b, w'.sbi.bfreeBitmap b = true →
    (w.sbi.bfreeBitmap b = true ∨ b ∈ holds w i) ∧ b ∉ holds w' i
  lost : ∀ b, metaEnd w.sbi ≤ b → w.sbi.bfreeBitmap b = false → (∀ j, b ∉ holds w j) →
    w'.disk b = w.disk b

section

variable {w w' : World} {i j : Nat} {node : Inode}

/-- No free block is in front of the data. -/
theorem FaultInv.metaEnd_le_of_free (h : FaultInv w) {b : Nat} (free : w.sbi.bfreeBitmap b = true) :
    metaEnd w.sbi ≤ b := by
  by_contra hlt
  rw [h.reserved b (Nat.not_le.mp hlt)] at free
  cases free

theorem FaultInv.change (h : FaultInv w) (i : Nat) (layout : SameLayout w.sbi w'.sbi)
    (blocks : BlocksOk w'.sbi) (others : ∀ j, j ≠ i → Kept w w' j)
    (cached : InUse w'.sbi i → ∃ node, w'.icache i = some node)
    (settled : ∀ node, live w' i = some node → Settled w' node) (nodup : (holds w' i).Nodup)
    (new : ∀ b ∈ holds w' i, b ∈ holds w i ∨ b < w.sbi.nrBlocks ∧ w.sbi.bfreeBitmap b = true)
    (free : ∀ b, w'.sbi.bfreeBitmap b = true →
      (w.sbi.bfreeBitmap b = true ∨ b ∈ holds w i) ∧ b ∉ holds w' i) : FaultInv w' := by
  have hend := metaEnd_congr layout
  refine ⟨h.shared.change i layout blocks others cached settled nodup new free,
    h.areas.congr layout, ?_, ?_⟩
  · intro b hb
    rw [hend] at hb
    by_contra hfree
    rcases (free b (by simpa using hfree)).1 with hwas | hheld
    · exact Nat.not_le.mpr hb (h.metaEnd_le_of_free hwas)
    · exact Nat.not_le.mpr hb (h.data i b hheld)
  · intro j b hb
    rw [hend]
    by_cases hj : j = i
    · subst hj
      rcases new b hb with hold | ⟨_, hfree⟩
      · exact h.data j b hold
      · exact h.metaEnd_le_of_free hfree
    · rw [(others j hj).holds_eq h.shared] at hb
      exact h.data j b hb

theorem Dealt.inv (d : Dealt w w' i) (h : FaultInv w) : FaultInv w' :=
  h.change i d.layout d.blocks d.others d.cached d.settled d.nodup d.new d.free

/-- The file `j` is the same, with the same bytes. -/
def Unharmed (w w' : World) (j : Nat) : Prop :=
  ∀ n, live w j = some n → sIsreg n.iMode = true → ∃ n', live w' j = some n' ∧
    sIsreg n'.iMode = true ∧ n'.iSize = n.iSize ∧
    (w'.ctx n' calmIo).content = (w.ctx n calmIo).content

theorem Unharmed.refl (w : World) (j : Nat) : Unharmed w w j :=
  fun n hl reg => ⟨n, hl, reg, rfl, rfl⟩

theorem Unharmed.trans {w'' : World} (u : Unharmed w w' j) (u' : Unharmed w' w'' j) :
    Unharmed w w'' j := by
  intro n hl reg
  obtain ⟨n', hl', reg', hsize, hcontent⟩ := u n hl reg
  obtain ⟨n'', hl'', reg'', hsize', hcontent'⟩ := u' n' hl' reg'
  exact ⟨n'', hl'', reg'', hsize'.trans hsize, hcontent'.trans hcontent⟩

theorem Dealt.unharmed (d : Dealt w w' i) (ne : j ≠ i) : Unharmed w w' j := by
  intro n hl reg
  have hkept := d.others j ne
  obtain ⟨n', hc, hsame⟩ := hkept.present n hl
  refine ⟨n', live_eq_some.mpr ⟨hkept.inUse.mpr (live_eq_some.mp hl).1, hc⟩,
    by rw [hsame.mode]; exact reg, hsame.iSize, ?_⟩
  have hentries : (w'.ctx n' calmIo).entries = (w.ctx n calmIo).entries := by
    unfold Ctx.entries
    change (List.range (n'.iBlocks - 1)).map _ = (List.range (n.iBlocks - 1)).map _
    rw [hsame.iBlocks]
    exact List.map_congr_left fun k _ => hsame.blocks reg k
  unfold Ctx.content
  rw [hentries]
  refine bytesOf_congr fun e he => d.frame j n ne hl reg _ ?_
  rw [holds_live hl, nodeBlocks, if_pos reg]
  exact List.mem_cons_of_mem _ (List.mem_map_of_mem he)

theorem FaultInv.used (h : FaultInv w) {b : Nat} (hb : b ∈ holds w j) : Used w.sbi b :=
  h.shared.used hb

/-- The number 0 is no inode. -/
theorem live_zero (w : World) : live w 0 = none := if_neg fun hin => absurd hin.1 (lt_irrefl 0)

/-- A block of a file is no block of a directory and none in front of the data. -/
theorem FaultInv.apart (h : FaultInv w) (own : live w j = some node)
    (reg : sIsreg node.iMode = true) {b : Nat} (hb : b ∈ holds w j) :
    ¬ (b < metaEnd w.sbi ∨ ∃ k n, LiveDir w k n ∧ b = n.indexBlock) := by
  rintro (hlt | ⟨k, n, hn, rfl⟩)
  · exact Nat.not_le.mpr hlt (h.data j b hb)
  · obtain rfl := h.shared.exclusive.disjoint j k _ hb (index_mem_holds hn.live)
    obtain rfl : n = node := Option.some.inj (hn.live.symm.trans own)
    rw [sIsreg_of_sIsdir hn.type] at reg
    cases reg

/-- Only directories, times, links and blocks in front of the data change. -/
structure Linked (w w' : World) : Prop where
  sbi : w'.sbi = w.sbi
  icache : ∀ j n, live w j = some n → ∃ n', w'.icache j = some n' ∧ Refreshed n n'
  disk : ∀ b, w'.disk b = w.disk b ∨ b < metaEnd w.sbi ∨ ∃ k n, LiveDir w k n ∧ b = n.indexBlock

theorem Linked.refl (w : World) : Linked w w :=
  ⟨rfl, fun _ n hl => ⟨n, (live_eq_some.mp hl).2, rfl, rfl, rfl, rfl⟩, fun _ => Or.inl rfl⟩

theorem Linked.setBlock (l : Linked w w') {k : Nat} {n : Inode} (dir : LiveDir w k n)
    (block : Buffer) : Linked w (w'.setBlock n.indexBlock block) := by
  refine ⟨l.sbi, l.icache, fun b => ?_⟩
  by_cases hb : b = n.indexBlock
  · exact Or.inr (Or.inr ⟨k, n, dir, hb⟩)
  · exact (l.disk b).imp_left fun heq => (set_of_ne _ _ hb).trans heq

theorem Linked.modify (l : Linked w w') (k : Nat) {f : Inode → Inode}
    (fresh : ∀ n, Refreshed n (f n)) : Linked w (w'.modify k f) := by
  refine ⟨l.sbi, fun j n hl => ?_, l.disk⟩
  obtain ⟨n', hc, hn'⟩ := l.icache j n hl
  by_cases hj : j = k
  · subst hj
    have hf := fresh n'
    exact ⟨f n', modify_self f hc, hf.mode.trans hn'.mode, hf.index.trans hn'.index,
      hf.iBlocks.trans hn'.iBlocks, hf.iSize.trans hn'.iSize⟩
  · exact ⟨n', (modify_of_ne w' f hj).trans hc, hn'⟩

theorem Linked.dealt (l : Linked w w') (h : FaultInv w) : Dealt w w' 0 := by
  have hframe : ∀ j n, live w j = some n → sIsreg n.iMode = true → ∀ b ∈ holds w j,
      w'.disk b = w.disk b := fun j n hl reg b hb =>
    (l.disk b).resolve_right (h.apart hl reg hb)
  have sbi := l.sbi
  refine ⟨sbi ▸ SameLayout.refl _, sbi ▸ h.shared.blocks, ?_, fun j n _ hl => hframe j n hl, ?_, ?_,
    ?_, ?_, ?_, ?_⟩
  · intro j _
    refine ⟨by rw [sbi], fun n hl => ?_⟩
    obtain ⟨n', hc, hfresh⟩ := l.icache j n hl
    exact ⟨n', hc, hfresh.mode, hfresh.index, hfresh.iBlocks, hfresh.iSize,
      fun reg => hframe j n hl reg _ (index_mem_holds hl)⟩
  · exact fun hin => absurd hin.1 (lt_irrefl 0)
  · intro n hl
    rw [live_zero] at hl
    cases hl
  · rw [holds_none (live_zero w')]
    exact List.nodup_nil
  · rw [holds_none (live_zero w')]
    intro b hb
    cases hb
  · rw [holds_none (live_zero w'), sbi]
    exact fun b hb => ⟨Or.inl hb, List.not_mem_nil⟩
  · intro b hge _ hlost
    refine (l.disk b).resolve_right ?_
    rintro (hlt | ⟨k, n, hn, rfl⟩)
    · exact Nat.not_le.mpr hlt hge
    · exact hlost k (index_mem_holds hn.live)

theorem dealt_undone (h : FaultInv w) (u : Undone w w') : Dealt w w' 0 := by
  have hin : ∀ j, InUse w'.sbi j ↔ InUse w.sbi j := by
    intro j
    rcases Nat.eq_zero_or_pos j with rfl | hpos
    · exact ⟨fun h => absurd h.1 (lt_irrefl 0), fun h => absurd h.1 (lt_irrefl 0)⟩
    · exact inUse_congr u.layout (u.inodes j hpos)
  refine ⟨u.layout, u.blocks h.shared.blocks, ?_, fun _ _ _ _ _ _ _ => by rw [u.disk], ?_, ?_, ?_, ?_,
    ?_, fun _ _ _ _ => by rw [u.disk]⟩
  · intro j _
    refine ⟨hin j, fun n hl => ?_⟩
    obtain ⟨huse, hc⟩ := live_eq_some.mp hl
    exact ⟨n, (u.icache j huse.2.2).trans hc, rfl, rfl, rfl, rfl, fun _ => by rw [u.disk]⟩
  · exact fun hin => absurd hin.1 (lt_irrefl 0)
  · intro n hl
    rw [live_zero] at hl
    cases hl
  · rw [holds_none (live_zero w')]
    exact List.nodup_nil
  · rw [holds_none (live_zero w')]
    intro b hb
    cases hb
  · intro b hb
    rw [holds_none (live_zero w')]
    refine ⟨Or.inl ?_, List.not_mem_nil⟩
    by_contra hused
    rw [u.taken b (by simpa using hused)] at hb
    cases hb

/-- The block of a directory is none of a file's. -/
theorem FaultInv.ne_parent (h : FaultInv w) {dir : Nat} {d : Inode} (parent : LiveDir w dir d)
    (own : live w j = some node) (reg : sIsreg node.iMode = true) {b : Nat} (hb : b ∈ holds w j) :
    b ≠ d.indexBlock := fun heq => h.apart own reg hb (Or.inr ⟨dir, d, parent, heq⟩)

theorem dealt_created (h : FaultInv w) {bno mode dir : Nat} {d : Inode} (parent : LiveDir w dir d)
    (c : Created w dir d i bno mode w') : Dealt w w' i := by
  obtain ⟨hin, hout, hholds⟩ := c.holds_eq
  obtain ⟨w₁, new, sbi⟩ := c.new
  obtain ⟨node, init, own⟩ := c.own
  have hl : live w' i = some node := live_eq_some.mpr ⟨hin, own⟩
  refine ⟨sbi ▸ new.layout, sbi ▸ new.blocks h.shared.blocks, ?_, ?_, fun _ => ⟨node, own⟩, ?_, ?_,
    ?_, ?_, ?_⟩
  · intro j hj
    have hbit : w'.sbi.ifreeBitmap j = w.sbi.ifreeBitmap j := by
      rw [sbi, new.inodes, clearBit_of_ne _ hj]
    refine kept_of_parent h.shared parent c.up (inUse_congr (sbi ▸ new.layout) hbit) (c.others j hj)
      ?_
    exact fun n hl hne => c.frame _ (h.shared.ne_of_free (index_mem_holds hl) new.bno_free) hne
  · exact fun j n _ hl reg b hb =>
      c.frame b (h.shared.ne_of_free hb new.bno_free) (h.ne_parent parent hl reg hb)
  · intro n hn
    obtain rfl : node = n := Option.some.inj (hl.symm.trans hn)
    exact ⟨by rw [init.dir, init.reg]; exact new.type, fun _ => Or.inl ⟨[], c.shape init⟩⟩
  · rw [hholds]
    exact List.nodup_singleton bno
  · rw [hholds]
    intro b hb
    rw [List.mem_singleton.mp hb]
    exact Or.inr ⟨new.bno_lt, new.bno_free⟩
  · intro b hb
    rw [sbi, new.bitmap] at hb
    rw [hholds, List.mem_singleton]
    by_cases heq : b = bno
    · rw [heq, clearBit_self] at hb
      cases hb
    · rw [clearBit_of_ne _ heq] at hb
      exact ⟨Or.inl hb, heq⟩
  · intro b _ hused hlost
    refine c.frame b ?_ fun heq => hlost dir (heq ▸ index_mem_holds parent.live)
    rintro rfl
    rw [new.bno_free] at hused
    cases hused

theorem dealt_removed (h : FaultInv w) {dir : Nat} {d : Inode} {freed : List Nat}
    (parent : LiveDir w dir d) (nodup : freed.Nodup) (sub : ∀ b ∈ freed, b ∈ holds w i)
    (r : Removed w dir d i freed w') : Dealt w w' i := by
  obtain ⟨sbi, released, blocks, _⟩ := r.released
  have hnone : live w' i = none := if_neg r.not_inUse
  have hok : BlocksOk sbi := released.blocksOk h.shared.blocks nodup fun b hb => h.used (sub b hb)
  refine ⟨r.layout, blocks.blocksOk hok, ?_, ?_, fun hin => absurd hin r.not_inUse, ?_, ?_, ?_, ?_,
    fun b _ _ hlost => r.frame b (hlost i) fun heq => hlost dir (heq ▸ index_mem_holds parent.live)⟩
  · intro j hj
    refine kept_of_parent h.shared parent r.up (r.inUse_iff hj) (r.others j hj) ?_
    exact fun n hl => r.frame _ (h.shared.exclusive.not_mem hj (index_mem_holds hl))
  · exact fun j n hj hl reg b hb =>
      r.frame b (h.shared.exclusive.not_mem hj hb) (h.ne_parent parent hl reg hb)
  · intro n hn
    rw [hnone] at hn
    cases hn
  · rw [holds_none hnone]
    exact List.nodup_nil
  · rw [holds_none hnone]
    intro b hb
    cases hb
  · intro b hb
    rw [blocks.bitmap, released.bitmap b, Bool.or_eq_true, decide_eq_true_iff] at hb
    rw [holds_none hnone]
    exact ⟨hb.imp_right (sub b), List.not_mem_nil⟩

theorem dealt_confined (h : FaultInv w) (own : live w i = some node)
    (reg : sIsreg node.iMode = true) {io : Io} {t : Ctx} (c : Confined (w.ctx node io) t) :
    Dealt w (w.withCtx i t) i := by
  have hreg : sIsreg t.node.iMode = true := by rw [c.mode]; exact reg
  have hindex : t.node.indexBlock = node.indexBlock := c.index
  have hin : InUse t.sbi i := (inUse_congr c.layout (by rw [c.inodes])).mpr (live_eq_some.mp own).1
  have hl : live (w.withCtx i t) i = some t.node :=
    live_eq_some.mpr ⟨hin, if_pos rfl⟩
  have hholds : holds w i = node.indexBlock :: numbers (w.ctx node io).entries := by
    rw [holds_live own, nodeBlocks, if_pos reg]
    rfl
  have hholds' : holds (w.withCtx i t) i = node.indexBlock :: numbers t.entries := by
    rw [holds_live hl, nodeBlocks, if_pos hreg, hindex]
    rfl
  have hnodup := h.shared.exclusive.nodup i
  rw [hholds, List.nodup_cons] at hnodup
  -- what is neither the file's nor free stays
  have hstays : ∀ b, b ∉ holds w i → w.sbi.bfreeBitmap b = false → t.disk b = w.disk b := by
    intro b hnot hused
    rw [hholds, List.mem_cons, not_or] at hnot
    refine c.frame _ hnot.1 hnot.2 fun hnew => ?_
    rcases c.new _ hnew with hold | ⟨_, hfree⟩
    · exact hnot.2 hold
    · exact absurd (hfree.symm.trans hused) (by simp)
  have hframe : ∀ j, j ≠ i → ∀ b ∈ holds w j, t.disk b = w.disk b := fun j hj b hb =>
    hstays b (h.shared.exclusive.not_mem hj hb) (h.used hb).taken
  refine ⟨c.layout, c.ok, ?_, fun j n hj _ _ => hframe j hj, fun _ => ⟨t.node, if_pos rfl⟩, ?_, ?_,
    ?_, ?_, fun b _ hused hlost => hstays b (hlost i) hused⟩
  · intro k hk
    have hbit : (w.withCtx i t).sbi.ifreeBitmap k = w.sbi.ifreeBitmap k := congrFun c.inodes k
    exact ⟨inUse_congr c.layout hbit, fun n hn => ⟨n, (if_neg hk).trans (live_eq_some.mp hn).2, rfl,
      rfl, rfl, rfl, fun _ => hframe k hk _ (index_mem_holds hn)⟩⟩
  · intro n hn
    obtain rfl : t.node = n := Option.some.inj (hl.symm.trans hn)
    refine ⟨Or.inr hreg, fun _ => c.file.imp_left ?_⟩
    rintro ⟨es, hshape⟩
    exact ⟨es, hshape.congr (fun _ _ => rfl) rfl rfl⟩
  · rw [hholds', List.nodup_cons]
    rcases c.file with ⟨es, hshape⟩ | ⟨hzero, _⟩
    · rw [hshape.entries_eq]
      exact ⟨hindex ▸ hshape.apart, hshape.distinct⟩
    · rw [entries_nil hzero]
      exact ⟨List.not_mem_nil, List.nodup_nil⟩
  · rw [hholds, hholds']
    intro b hb
    rcases List.mem_cons.mp hb with heq | hmem
    · exact Or.inl (heq ▸ List.mem_cons_self)
    · exact (c.new b hmem).imp_left (List.mem_cons_of_mem _)
  · intro b hb
    obtain ⟨hwas, hnot⟩ := c.free b hb
    rw [hholds, hholds', List.mem_cons, List.mem_cons, not_or]
    refine ⟨hwas.imp_right Or.inr, ?_, hnot⟩
    rintro rfl
    rcases hwas with hfree | hold
    · exact h.shared.ne_of_free (index_mem_holds own) hfree rfl
    · exact hnodup.1 hold

/-- One of the kinds of changes, and the inode it concerns. -/
inductive Change (w : World) : Nat → World → Prop
  | linked {w' : World} : Linked w w' → Change w 0 w'
  | undone {w' : World} : Undone w w' → Change w 0 w'
  | created {w' : World} {dir i bno mode : Nat} {d : Inode} :
      LiveDir w dir d → Created w dir d i bno mode w' → Change w i w'
  | removed {w' : World} {dir i : Nat} {d : Inode} {freed : List Nat} :
      LiveDir w dir d → freed.Nodup → (∀ b ∈ freed, b ∈ holds w i) →
      Removed w dir d i freed w' → Change w i w'
  | confined {i : Nat} {node : Inode} {io : Io} {t : Ctx} :
      live w i = some node → sIsreg node.iMode = true → Confined (w.ctx node io) t →
      Change w i (w.withCtx i t)

theorem Change.dealt (c : Change w i w') (h : FaultInv w) : Dealt w w' i := by
  cases c with
  | linked l => exact l.dealt h
  | undone u => exact dealt_undone h u
  | created parent c => exact dealt_created h parent c
  | removed parent nodup sub r => exact dealt_removed h parent nodup sub r
  | confined own reg c => exact dealt_confined h own reg c

theorem Refreshed.refl (n : Inode) : Refreshed n n := ⟨rfl, rfl, rfl, rfl⟩

/-- All other inodes keep their sizes and their index blocks. -/
theorem Change.refreshed (c : Change w i w') (ne : j ≠ i) (own : live w j = some node) :
    ∃ node', live w' j = some node' ∧ Refreshed node node' := by
  obtain ⟨hin, hc⟩ := live_eq_some.mp own
  have hparent : ∀ {dir : Nat} {d : Inode}, LiveDir w dir d → InUse w'.sbi j →
      (∃ d', w'.icache dir = some d' ∧ Refreshed d d') → (j ≠ dir → w'.icache j = w.icache j) →
      ∃ node', live w' j = some node' ∧ Refreshed node node' := by
    intro dir d parent hin' hup hother
    by_cases hj : j = dir
    · subst hj
      obtain rfl : d = node := Option.some.inj (parent.live.symm.trans own)
      obtain ⟨d', hd', hfresh⟩ := hup
      exact ⟨d', live_eq_some.mpr ⟨hin', hd'⟩, hfresh⟩
    · exact ⟨node, live_eq_some.mpr ⟨hin', (hother hj).trans hc⟩, Refreshed.refl node⟩
  cases c with
  | linked l =>
    obtain ⟨node', hc', hfresh⟩ := l.icache j node own
    exact ⟨node', live_eq_some.mpr ⟨by rw [l.sbi]; exact hin, hc'⟩, hfresh⟩
  | undone u =>
    exact ⟨node, live_eq_some.mpr ⟨(inUse_congr u.layout (u.inodes j hin.1)).mpr hin,
      (u.icache j hin.2.2).trans hc⟩, Refreshed.refl node⟩
  | created parent c =>
    obtain ⟨w₁, new, sbi⟩ := c.new
    have hbit : w'.sbi.ifreeBitmap j = w.sbi.ifreeBitmap j := by
      rw [sbi, new.inodes, clearBit_of_ne _ ne]
    exact hparent parent ((inUse_congr (sbi ▸ new.layout) hbit).mpr hin) c.up (c.others j ne)
  | removed parent nodup sub r =>
    exact hparent parent ((r.inUse_iff ne).mpr hin) r.up (r.others j ne)
  | confined _ _ c =>
    exact ⟨node, live_eq_some.mpr ⟨(inUse_congr c.layout (congrFun c.inodes j)).mpr hin,
      (if_neg ne).trans hc⟩, Refreshed.refl node⟩

/-- The volume where the file `p`, if any, has no data blocks: what they hold counts as
lost. -/
def cleared (p : Option Nat) (w : World) : World :=
  { w with icache := fun i =>
      if p = some i then (w.icache i).map fun n => { n with iBlocks := 0, iSize := 0 }
      else w.icache i }

def Files (p : Option Nat) (w : World) : Prop :=
  ∀ q, p = some q → ∃ n, live w q = some n ∧ sIsreg n.iMode = true

variable {p : Option Nat}

theorem cleared_none (w : World) : cleared none w = w := by
  simp [cleared]

theorem files_none (w : World) : Files none w := fun q hq => by cases hq

theorem live_cleared (apart : p ≠ some i) : live (cleared p w) i = live w i := by
  simp [live, cleared, apart]

theorem live_cleared_self (own : live w i = some node) :
    live (cleared (some i) w) i = some { node with iBlocks := 0, iSize := 0 } := by
  obtain ⟨hin, hc⟩ := live_eq_some.mp own
  exact live_eq_some.mpr ⟨hin, by simp [cleared, hc]⟩

theorem holds_cleared (apart : p ≠ some i) : holds (cleared p w) i = holds w i := by
  unfold holds
  rw [live_cleared apart]
  rfl

theorem cleared_withCtx (apart : p ≠ some i) (t : Ctx) :
    cleared p (w.withCtx i t) = (cleared p w).withCtx i t := by
  unfold cleared World.withCtx World.cache
  congr 1
  funext j
  by_cases hj : j = i
  · subst hj
    simp [apart]
  · simp [hj]

theorem Files.apart (f : Files p w) {dir : Nat} {d : Inode} (dir' : LiveDir w dir d) :
    p ≠ some dir := by
  intro hp
  obtain ⟨n, hn, hreg⟩ := f dir hp
  obtain rfl : d = n := Option.some.inj (dir'.live.symm.trans hn)
  rw [sIsreg_of_sIsdir dir'.type] at hreg
  cases hreg

theorem Files.liveDir (f : Files p w) {dir : Nat} {d : Inode} (dir' : LiveDir w dir d) :
    LiveDir (cleared p w) dir d :=
  ⟨(live_cleared (f.apart dir')).trans dir'.live, dir'.type⟩

theorem Linked.cleared (l : Linked w w') (f : Files p w) :
    Linked (cleared p w) (cleared p w') := by
  refine ⟨l.sbi, fun j n hl => ?_, fun b => ?_⟩
  · by_cases hj : p = some j
    · obtain ⟨m, hm, _⟩ := f j hj
      obtain ⟨m', hc, hfresh⟩ := l.icache j m hm
      subst hj
      obtain rfl := Option.some.inj ((live_cleared_self hm).symm.trans hl)
      refine ⟨{ m' with iBlocks := 0, iSize := 0 }, ?_, hfresh.mode, hfresh.index, rfl, rfl⟩
      change (if _ then (w'.icache j).map _ else _) = _
      rw [if_pos rfl, hc]
      rfl
    · obtain ⟨n', hc, hfresh⟩ := l.icache j n ((live_cleared hj).symm.trans hl)
      exact ⟨n', (if_neg hj).trans hc, hfresh⟩
  · rcases l.disk b with heq | hlt | ⟨k, n, hn, hb⟩
    · exact Or.inl heq
    · exact Or.inr (Or.inl hlt)
    · exact Or.inr (Or.inr ⟨k, n, f.liveDir hn, hb⟩)

theorem Created.cleared {dir bno mode : Nat} {d : Inode} (c : Created w dir d i bno mode w')
    (apart : p ≠ some i) (apart' : p ≠ some dir) :
    Created (cleared p w) dir d i bno mode (cleared p w') := by
  obtain ⟨w₁, new, sbi⟩ := c.new
  refine ⟨⟨Faults.cleared p w₁, ⟨new.type, new.pos, new.lt, new.was_free, new.inodes, new.layout,
    new.blocks, new.bno_lt, new.bno_free, new.bitmap, new.disk, ?_⟩, sbi⟩, ?_, ?_, ?_, c.scrubbed,
    c.frame⟩
  · obtain ⟨node, init, hcache⟩ := new.icache
    refine ⟨node, init, ?_⟩
    funext j
    by_cases hj : j = i
    · subst hj
      simp [Faults.cleared, hcache, apart]
    · simp [Faults.cleared, hcache, hj]
  · obtain ⟨node, init, own⟩ := c.own
    exact ⟨node, init, (if_neg apart).trans own⟩
  · obtain ⟨d', hd', hfresh⟩ := c.up
    exact ⟨d', (if_neg apart').trans hd', hfresh⟩
  · intro j hj hjd
    simp only [Faults.cleared, c.others j hj hjd]

theorem Removed.cleared {dir : Nat} {d : Inode} {freed : List Nat} (r : Removed w dir d i freed w')
    (apart : p ≠ some i) (apart' : p ≠ some dir) :
    Removed (cleared p w) dir d i freed (cleared p w') := by
  refine ⟨r.released, ?_, ?_, fun j hj hjd => ?_, fun b hb => ?_⟩
  · obtain ⟨node, hgone⟩ := r.gone
    exact ⟨node, (if_neg apart).trans hgone⟩
  · obtain ⟨d', hd', hfresh⟩ := r.up
    exact ⟨d', (if_neg apart').trans hd', hfresh⟩
  · simp only [Faults.cleared, r.others j hj hjd]
  · rw [holds_cleared apart] at hb
    exact r.frame b hb

theorem Change.cleared (c : Change w i w') (f : Files p w) (apart : p ≠ some i) :
    Change (cleared p w) i (cleared p w') := by
  cases c with
  | linked l => exact .linked (l.cleared f)
  | undone u =>
    refine .undone ⟨u.layout, u.inodes, u.taken, u.disk, fun j hj => ?_, u.blocks⟩
    simp only [Faults.cleared, u.icache j hj]
  | created parent c =>
    exact .created (f.liveDir parent) (Created.cleared c apart (f.apart parent))
  | removed parent nodup sub r =>
    refine .removed (f.liveDir parent) nodup ?_ (Removed.cleared r apart (f.apart parent))
    rw [holds_cleared apart]
    exact sub
  | confined own reg c =>
    rw [cleared_withCtx apart]
    exact .confined ((live_cleared apart).trans own) reg c

theorem FaultInv.removable (h : FaultInv w) (own : live w i = some node)
    (counted : sIsreg node.iMode = true → 1 ≤ node.iBlocks) :
    ∃ data, Removable w i node data := by
  have hrange : ∀ b ∈ holds w i, b ≤ w.sbi.nrBlocks := fun b hb => Nat.le_of_lt (h.used hb).lt
  by_cases hdir : sIsdir node.iMode = true
  · have hholds : holds w i = [node.indexBlock] := by
      rw [holds_live own, nodeBlocks, sIsreg_of_sIsdir hdir]
      rfl
    exact ⟨[], hholds, hholds ▸ hrange, Or.inl ⟨hdir, rfl⟩⟩
  · have hreg := (h.shared.settled i node own).type.resolve_left hdir
    obtain ⟨es, hshape, hheld, hholds⟩ := h.shared.shape own hreg (counted hreg) calmIo
    exact ⟨numbers es, hholds, hholds ▸ hrange, Or.inr ⟨by simpa using hdir, es, hshape,
      hheld.nonzero, rfl⟩⟩

theorem change_unlink (f : Files p w) (h : FaultInv (cleared p w)) {io : Io} {dir : Nat} {d : Inode}
    {r : World × Int} (parent : LiveDir w dir d) (own : live w i = some node)
    (apart : p ≠ some i) (ne : i ≠ dir) (counted : sIsreg node.iMode = true → 1 ≤ node.iBlocks)
    (run : ouichefsUnlink w io dir i = some r) : r.1 = w ∨ Change w i r.1 := by
  have own' : live (cleared p w) i = some node := (live_cleared apart).trans own
  have happart : node.indexBlock ≠ d.indexBlock := fun heq =>
    h.shared.exclusive.not_mem ne (index_mem_holds own')
      (heq ▸ index_mem_holds (f.liveDir parent).live)
  obtain ⟨data, hrem⟩ := h.removable own' counted
  have hnodup := h.shared.exclusive.nodup i
  rw [hrem.holds, List.nodup_cons] at hnodup
  have hholds := (holds_cleared apart).symm.trans hrem.holds
  rcases ouichefsUnlink_cases parent own ne happart ⟨hholds, hrem.range, hrem.index⟩ run with
    ⟨hsame, _⟩ | ⟨freed, hfreed, hr⟩
  · exact Or.inl hsame
  -- the data blocks are given back, or lost
  have hsub : ∀ b ∈ freed, b ∈ data := by
    rcases hfreed with rfl | ⟨_, rfl⟩
    · exact fun b hb => hb
    · exact fun b hb => absurd hb List.not_mem_nil
  refine Or.inr (.removed parent ?_ ?_ hr)
  · refine List.Nodup.append ?_ (List.nodup_singleton _) ?_
    · rcases hfreed with rfl | ⟨_, rfl⟩
      · exact hnodup.2
      · exact List.nodup_nil
    · intro b hb hidx
      exact hnodup.1 (List.mem_singleton.mp hidx ▸ hsub b hb)
  · intro b hb
    rw [hholds]
    rcases List.mem_append.mp hb with hdata | hidx
    · exact List.mem_cons_of_mem _ (hsub b hdata)
    · rw [List.mem_singleton.mp hidx]
      exact List.mem_cons_self

theorem change_rmdir (f : Files p w) (h : FaultInv (cleared p w)) {io : Io} {dir : Nat} {d : Inode}
    {r : World × Int} (parent : LiveDir w dir d) (own : LiveDir w i node)
    (run : ouichefsRmdir w io dir i = some r) : r.1 = w ∨ Change w i r.1 := by
  obtain ⟨hin, hc⟩ := live_eq_some.mp own.live
  unfold ouichefsRmdir at run
  rw [hc, Option.bind_some] at run
  by_cases hlinks : node.iNlink > 2
  · rw [if_pos hlinks] at run
    cases run
    exact Or.inl rfl
  rw [if_neg hlinks] at run
  by_cases hread : io.bread 0 = false
  · rw [if_pos hread] at run
    cases run
    exact Or.inl rfl
  rw [if_neg hread] at run
  by_cases hfull : fileInode (w.disk node.indexBlock) 0 ≠ 0
  · rw [if_pos hfull] at run
    cases run
    exact Or.inl rfl
  rw [if_neg hfull] at run
  have hempty := not_not.mp hfull
  by_cases hne : i = dir
  · -- an empty directory does not name itself
    subst hne
    obtain rfl : d = node := Option.some.inj (parent.live.symm.trans own.live)
    have hnone : findSubLoop (w.disk d.indexBlock) i maxSubfiles 0 none = (none, 0) := by
      rw [maxSubfiles, findSubLoop, if_neg (by rw [hempty]; exact hin.1.ne), if_pos hempty]
    unfold ouichefsUnlink at run
    simp only [hc, Option.bind_some, hnone] at run
    split at run <;> cases run
    exact Or.inl rfl
  · refine change_unlink f h parent own.live (f.apart own) hne (fun reg => ?_) run
    rw [sIsreg_of_sIsdir own.type] at reg
    cases reg

/-- Whatever the names and the flags, and even if the entry has been copied but cannot
be removed. -/
theorem linked_rename {io : Io} {oldDir newDir src flags : Nat} {ciOld ciNew : Inode}
    {oldName newName : List Byte} {r : World × Int} (old : LiveDir w oldDir ciOld)
    (new : LiveDir w newDir ciNew)
    (run : ouichefsRename w io oldDir oldName newDir newName src flags = some r) : Linked w r.1 := by
  unfold ouichefsRename at run
  rw [(live_eq_some.mp old.live).2, Option.bind_some, (live_eq_some.mp new.live).2,
    Option.bind_some] at run
  obtain ⟨inode, _, run⟩ := Option.bind_eq_some_iff.mp run
  split at run
  · cases run
    exact .refl w
  split at run
  · cases run
    exact .refl w
  split at run
  · cases run
    exact .refl w
  simp only at run
  split at run
  · cases run
    exact .refl w
  rename_i fPos newPos _
  split at run
  · obtain ⟨k, _, rfl⟩ := Option.map_eq_some_iff.mp run
    exact (Linked.refl w).setBlock new _
  cases newPos with
  | none =>
    cases run
    exact .refl w
  | some k =>
    simp only at run
    have hentered := ((Linked.refl w).setBlock new (strscpy (putLe32 (w.disk ciNew.indexBlock)
      (32 * k) (BitVec.ofNat 32 src)) (32 * k + 4) filenameLen newName)).modify newDir
      (f := fun d => { d with
        iAtime := io.now, iCtime := io.now, iMtime := io.now
        iNlink := if sIsdir inode.iMode then u32 (d.iNlink + 1 : Nat) else d.iNlink })
      fun _ => ⟨rfl, rfl, rfl, rfl⟩
    split at run
    · cases run
      exact hentered
    split at run
    · cases run
    split at run
    · cases run
    cases run
    exact (hentered.setBlock old _).modify oldDir fun _ => ⟨rfl, rfl, rfl, rfl⟩

theorem linked_iget {who : Caller} {ok : Bool} {ino : Nat} {v : World}
    (run : ouichefsIget w who ok ino = .ok v) : Linked w v := by
  unfold ouichefsIget at run
  simp only at run
  split at run
  · cases run
  split at run
  · cases run
  cases hc : w.icache ino with
  | some n =>
    rw [hc] at run
    cases run
    exact .refl w
  | none =>
    rw [hc] at run
    simp only at run
    split at run
    · cases run
    cases run
    refine ⟨rfl, fun j n hl => ?_, fun _ => Or.inl rfl⟩
    have hj := (live_eq_some.mp hl).2
    refine ⟨n, (if_neg ?_).trans hj, rfl, rfl, rfl, rfl⟩
    rintro rfl
    rw [hc] at hj
    cases hj

theorem linked_lookup {who : Caller} {io : Io} {dir : Nat} {name : List Byte}
    {r : World × Except Int (Option Nat)} (run : ouichefsLookup w who io dir name = some r) :
    Linked w r.1 := by
  unfold ouichefsLookup at run
  obtain ⟨d, _, run⟩ := Option.bind_eq_some_iff.mp run
  split at run
  · cases run
    exact .refl w
  split at run
  · cases run
    exact .refl w
  split at run
  · cases run
    exact (Linked.refl w).modify dir fun _ => ⟨rfl, rfl, rfl, rfl⟩
  split at run
  · cases run
  · cases run
    rename_i hget
    exact (linked_iget hget).modify dir fun _ => ⟨rfl, rfl, rfl, rfl⟩

theorem Filed.linked (f : Filed w w') : Linked w w' := by
  refine ⟨f.sbi, fun j n hl => ⟨n, by rw [f.icache]; exact (live_eq_some.mp hl).2, rfl, rfl, rfl,
    rfl⟩, fun b => ?_⟩
  rcases Nat.lt_or_ge b (metaEnd w.sbi) with hlt | hge
  · exact Or.inr (Or.inl hlt)
  · exact Or.inl (f.disk b hge)

/-- One call, with any outcome of any read and any copy, labelled with the file it
writes or the inode it removes. A file is written in its own format, a truncated one
no more, and a full index is not truncated. -/
inductive FaultStep : World → Nat → World → Prop
  | lookup (w : World) (who : Caller) (io : Io) (dir : Nat) (name : List Byte)
      (r : World × Except Int (Option Nat)) :
      ouichefsLookup w who io dir name = some r → FaultStep w 0 r.1
  | create (w : World) (who : Caller) (io : Io) (dir : Nat) (d : Inode) (name : List Byte)
      (mode : Nat) (r : World × Int) :
      LiveDir w dir d → ouichefsCreate w who io dir name mode = some r → FaultStep w 0 r.1
  | mkdir (w : World) (who : Caller) (io : Io) (dir : Nat) (d : Inode) (name : List Byte)
      (mode : Nat) (r : World × Int) :
      LiveDir w dir d → ouichefsMkdir w who io dir name mode = some r → FaultStep w 0 r.1
  | unlink (w : World) (io : Io) (dir ino : Nat) (d node : Inode) (r : World × Int) :
      LiveDir w dir d → live w ino = some node → sIsreg node.iMode = true → 1 ≤ node.iBlocks →
      ouichefsUnlink w io dir ino = some r → FaultStep w ino r.1
  | rmdir (w : World) (io : Io) (dir ino : Nat) (d node : Inode) (r : World × Int) :
      LiveDir w dir d → LiveDir w ino node → ouichefsRmdir w io dir ino = some r →
      FaultStep w ino r.1
  | rename (w : World) (io : Io) (oldDir newDir src flags : Nat) (ciOld ciNew : Inode)
      (oldName newName : List Byte) (r : World × Int) :
      LiveDir w oldDir ciOld → LiveDir w newDir ciNew →
      ouichefsRename w io oldDir oldName newDir newName src flags = some r → FaultStep w 0 r.1
  | openFile (w : World) (io : Io) (ino : Nat) (node : Inode) (fFlags fuel : Nat) (r : Ctx × Int) :
      live w ino = some node → sIsreg node.iMode = true →
      (fFlags &&& oTrunc ≠ 0 → node.iBlocks ≤ indexSlots) →
      ouichefsOpen fuel (w.ctx node io) fFlags = some r → FaultStep w ino (w.withCtx ino r.1)
  | lightWrite (w : World) (io : Io) (ino : Nat) (node : Inode) (fFlags pos : Nat)
      (data : List Byte) :
      live w ino = some node → sIsreg node.iMode = true → 1 ≤ node.iBlocks →
      node.iSize = total (w.ctx node io).entries →
      FaultStep w ino (w.withCtx ino (ouichefsLightWrite (w.ctx node io) fFlags data pos).ctx)
  | write (w : World) (io : Io) (ino : Nat) (node : Inode) (fFlags pos : Nat) (data : List Byte) :
      live w ino = some node → sIsreg node.iMode = true → 1 ≤ node.iBlocks →
      (∀ e ∈ (w.ctx node io).entries, e.toNat < 524288) →
      FaultStep w ino (w.withCtx ino (ouichefsWrite (w.ctx node io) fFlags data pos).ctx)
  | defrag (w : World) (io : Io) (ino fuel : Nat) (node : Inode) (r : Ctx × Int) :
      live w ino = some node → sIsreg node.iMode = true → 1 ≤ node.iBlocks →
      node.iSize = total (w.ctx node io).entries →
      ouichefsDefrag fuel (w.ctx node io) = some r → FaultStep w ino (w.withCtx ino r.1)
  | writeInode (w : World) (ok : Bool) (ino : Nat) (node : Inode) :
      FaultStep w 0 (ouichefsWriteInode w ok ino node).1
  | syncFs (w : World) (readable : Nat → Bool) : FaultStep w 0 (synced w readable)

/-- A call deals with one inode, that of its label or one that was not there. -/
theorem FaultStep.change (f : Files p w) (h : FaultInv (cleared p w)) (apart : p ≠ some i)
    (step : FaultStep w i w') : w' = w ∨ ∃ k, Change w k w' ∧ (k = i ∨ live w k = none) := by
  have hlive : ∀ {k : Nat} {n : Inode}, p ≠ some k → live w k = some n →
      live (cleared p w) k = some n := fun hk own => (live_cleared hk).trans own
  have hareas : Areas w.sbi := h.areas
  have hcreate : ∀ {who : Caller} {io : Io} {dir mode : Nat} {d : Inode} {name : List Byte}
      {r : World × Int}, LiveDir w dir d → ouichefsCreate w who io dir name mode = some r →
      ∃ k, Change w k r.1 ∧ (k = 0 ∨ live w k = none) := by
    intro who io dir mode d name r parent run
    rcases ouichefsCreate_cases parent (h.used (index_mem_holds (f.liveDir parent).live)).taken run
      with ⟨_, hundone, _⟩ | ⟨_, ino, bno, hc, _⟩
    · exact ⟨0, .undone hundone, Or.inl rfl⟩
    · exact ⟨ino, .created parent hc, Or.inr hc.holds_eq.2.1⟩
  cases step with
  | lookup who io dir name r run => exact Or.inr ⟨0, .linked (linked_lookup run), Or.inl rfl⟩
  | create who io dir d name mode r parent run => exact Or.inr (hcreate parent run)
  | mkdir who io dir d name mode r parent run => exact Or.inr (hcreate parent run)
  | unlink io dir ino d node r parent own reg counted run =>
    refine (change_unlink f h parent own apart ?_ (fun _ => counted) run).imp_right fun hd =>
      ⟨i, hd, Or.inl rfl⟩
    rintro rfl
    obtain rfl : node = d := Option.some.inj (own.symm.trans parent.live)
    rw [sIsreg_of_sIsdir parent.type] at reg
    cases reg
  | rmdir io dir ino d node r parent own run =>
    exact (change_rmdir f h parent own run).imp_right fun hd => ⟨i, hd, Or.inl rfl⟩
  | rename io oldDir newDir src flags ciOld ciNew oldName newName r old new run =>
    exact Or.inr ⟨0, .linked (linked_rename old new run), Or.inl rfl⟩
  | openFile io ino node fFlags fuel r own reg few run =>
    exact Or.inr ⟨i, .confined own reg
      (ouichefsOpen_shared h.shared (hlive apart own) reg few run), Or.inl rfl⟩
  | lightWrite io ino node fFlags pos data own reg counted size =>
    obtain ⟨es, hinv⟩ := SharedInv.fileInv h.shared (hlive apart own) reg counted size
    obtain ⟨fresh, es', g, m, hw⟩ := ouichefsLightWrite_spec hinv.shape hinv.held
      hinv.size fFlags (addressable_of_small hinv.small _)
    exact Or.inr ⟨i, .confined own reg
      (Effect.confined (Written.effect hw hinv) hinv.shape), Or.inl rfl⟩
  | write io ino node fFlags pos data own reg counted plain =>
    obtain ⟨bs, hinv⟩ := SharedInv.plainInv h.shared (hlive apart own) reg counted plain
    obtain ⟨fresh, hl⟩ := ouichefsWrite_lengthened hinv fFlags data pos
    exact Or.inr ⟨i, .confined own reg (Lengthened.confined hl hinv), Or.inl rfl⟩
  | defrag io ino fuel node r own reg counted size run =>
    obtain ⟨es, hinv⟩ := SharedInv.fileInv h.shared (hlive apart own) reg counted size
    obtain ⟨es', htidied, _⟩ := defrag_tidied hinv run
    exact Or.inr ⟨i, .confined own reg (Effect.confined htidied.effect hinv.shape),
      Or.inl rfl⟩
  | writeInode ok ino node =>
    exact Or.inr ⟨0, .linked (Filed.linked (writeInode_filed hareas ok ino node)), Or.inl rfl⟩
  | syncFs readable =>
    exact Or.inr ⟨0, .linked (Filed.linked (syncFs_filed hareas readable)), Or.inl rfl⟩

theorem FaultStep.dealt (h : FaultInv w) (step : FaultStep w i w') :
    w' = w ∨ ∃ k, Dealt w w' k ∧ (k = i ∨ live w k = none) := by
  rcases step.change (files_none w) ((cleared_none w).symm ▸ h) (by simp) with
    hsame | ⟨k, hc, hk⟩
  · exact Or.inl hsame
  · exact Or.inr ⟨k, hc.dealt h, hk⟩

theorem FaultStep.inv (h : FaultInv w) (step : FaultStep w i w') : FaultInv w' := by
  rcases step.dealt h with rfl | ⟨k, hd, _⟩
  · exact h
  · exact hd.inv h

theorem FaultStep.unharmed (h : FaultInv w) (step : FaultStep w i w') (ne : j ≠ i) :
    Unharmed w w' j := by
  rcases step.dealt h with rfl | ⟨k, hd, hk⟩
  · exact .refl w' j
  by_cases hj : j = k
  · subst hj
    intro n hl
    rw [hk.resolve_left ne] at hl
    cases hl
  · exact hd.unharmed hj

end

/-- Nothing has failed yet. -/
theorem WorldInv.faults {w : World} (h : WorldInv w) (areas : Areas w.sbi) : FaultInv w :=
  ⟨WorldInv.shared h, areas, fun b hb => Bool.eq_false_iff.mpr (h.ledger.reserved_taken b hb),
    fun _ _ hb => (h.used hb).2⟩

end Faults
