import OuicheFs.Lifecycle
import OuicheFs.Truncation
import OuicheFs.PlainWrite

/-!
# Files that share a volume

What holds however the files are written and whatever fails: no two live inodes
share a block and no block of a live inode is free. Blocks may get lost, the size
of a file need not follow its entries, and a truncated file has no block count.
-/
namespace Sharing

open CInt Bits ByteBuffer IndexEntry Allocator FileContext Layout OuicheFile OuicheWrite OuicheInode
  Reserve Mkfs FileRun Ledger Ownership Lifecycle Loop Truncation PlainWrite

/-- A live inode is a directory, or a regular file whose index is packed or has
been cleared by a truncation. -/
structure Settled (w : World) (node : Inode) : Prop where
  type : sIsdir node.iMode = true ∨ sIsreg node.iMode = true
  file : sIsreg node.iMode = true →
    (∃ es, Shape (w.ctx node calmIo) es) ∨ (node.iBlocks = 0 ∧ node.iSize = 0)

structure SharedInv (w : World) : Prop where
  blocks : BlocksOk w.sbi
  small : w.sbi.nrBlocks ≤ 524288
  cached : ∀ ino, InUse w.sbi ino → ∃ node, w.icache ino = some node
  settled : ∀ ino node, live w ino = some node → Settled w node
  exclusive : Exclusive (fun b => 0 < b ∧ b < w.sbi.nrBlocks) (w.sbi.bfreeBitmap · = true) (holds w)

section

variable {w w' : World} {ino j : Nat} {node : Inode}

theorem WorldInv.shared (h : WorldInv w) : SharedInv w := by
  refine ⟨h.blocks, h.small, h.cached, ?_, h.ledger.nodup, h.ledger.disjoint, ?_⟩
  · intro ino node hl
    obtain ⟨htype, hfile⟩ := h.sound ino node hl
    refine ⟨htype, fun reg => ?_⟩
    obtain ⟨es, hshape, _⟩ := hfile reg
    exact Or.inl ⟨es, hshape⟩
  · intro ino b hb
    have hused := (h.used hb).1
    exact ⟨⟨hused.pos, hused.lt⟩, by rw [hused.taken]; simp⟩

theorem SharedInv.used (h : SharedInv w) {b : Nat} (hb : b ∈ holds w ino) : Used w.sbi b := by
  obtain ⟨⟨hpos, hlt⟩, hfree⟩ := h.exclusive.held ino b hb
  exact ⟨hpos, hlt, Bool.eq_false_iff.mpr hfree⟩

/-- A block in use is apart from those that are free. -/
theorem SharedInv.ne_of_free (h : SharedInv w) {b c : Nat} (hb : b ∈ holds w ino)
    (free : w.sbi.bfreeBitmap c = true) : b ≠ c := by
  rintro rfl
  rw [(h.used hb).taken] at free
  cases free

/-! ## Changes that concern one inode -/

/-- The inode `j` is live as before, with the same file. -/
structure Kept (w w' : World) (j : Nat) : Prop where
  inUse : InUse w'.sbi j ↔ InUse w.sbi j
  present : ∀ node, live w j = some node → ∃ node', w'.icache j = some node' ∧
    SameFile w w' node node'

theorem Kept.live_of (h : SharedInv w) (k : Kept w w' j) {node' : Inode}
    (hl : live w' j = some node') : ∃ node, live w j = some node ∧ SameFile w w' node node' := by
  obtain ⟨hin, hc⟩ := live_eq_some.mp hl
  obtain ⟨node, hcache⟩ := h.cached j (k.inUse.mp hin)
  have hold : live w j = some node := live_eq_some.mpr ⟨k.inUse.mp hin, hcache⟩
  obtain ⟨node'', hc', hsame⟩ := k.present node hold
  obtain rfl : node' = node'' := Option.some.inj (hc.symm.trans hc')
  exact ⟨node, hold, hsame⟩

theorem Kept.holds_eq (h : SharedInv w) (k : Kept w w' j) : holds w' j = holds w j := by
  cases hl : live w' j with
  | some node' =>
    obtain ⟨node, hold, hsame⟩ := k.live_of h hl
    rw [holds_live hl, holds_live hold, hsame.nodeBlocks_eq]
  | none =>
    have hold : live w j = none := by
      cases hw : live w j with
      | none => rfl
      | some node =>
        obtain ⟨node', hc', _⟩ := k.present node hw
        rw [live_eq_some.mpr ⟨k.inUse.mpr (live_eq_some.mp hw).1, hc'⟩] at hl
        cases hl
    rw [holds_none hl, holds_none hold]

/-- A change that concerns the inode `ino` alone keeps the invariant, if it
leaves that inode in order and takes no block that is not free. -/
theorem SharedInv.change (h : SharedInv w) (ino : Nat) (layout : SameLayout w.sbi w'.sbi)
    (blocks : BlocksOk w'.sbi) (others : ∀ j, j ≠ ino → Kept w w' j)
    (cached : InUse w'.sbi ino → ∃ node, w'.icache ino = some node)
    (settled : ∀ node, live w' ino = some node → Settled w' node)
    (nodup : (holds w' ino).Nodup)
    (new : ∀ b ∈ holds w' ino, b ∈ holds w ino ∨
      b < w.sbi.nrBlocks ∧ w.sbi.bfreeBitmap b = true)
    (free : ∀ b, w'.sbi.bfreeBitmap b = true →
      (w.sbi.bfreeBitmap b = true ∨ b ∈ holds w ino) ∧ b ∉ holds w' ino) : SharedInv w' := by
  refine ⟨blocks, layout.nrBlocks ▸ h.small, ?_, ?_, ?_⟩
  · intro j hj
    by_cases hji : j = ino
    · rw [hji] at hj ⊢
      exact cached hj
    · obtain ⟨node, hc⟩ := h.cached j ((others j hji).inUse.mp hj)
      obtain ⟨node', hc', _⟩ := (others j hji).present node
        (live_eq_some.mpr ⟨(others j hji).inUse.mp hj, hc⟩)
      exact ⟨node', hc'⟩
  · intro j node' hl
    by_cases hji : j = ino
    · rw [hji] at hl
      exact settled node' hl
    · obtain ⟨node, hold, hsame⟩ := (others j hji).live_of h hl
      obtain ⟨htype, hfile⟩ := h.settled j node hold
      refine ⟨by rw [hsame.mode]; exact htype, ?_⟩
      rw [hsame.mode]
      intro reg
      rcases hfile reg with ⟨es, hshape⟩ | hcleared
      · exact Or.inl ⟨es, hshape.congr (fun i _ => hsame.blocks reg i) hsame.iBlocks hsame.index⟩
      · exact Or.inr (by rw [hsame.iBlocks, hsame.iSize]; exact hcleared)
  · rw [layout.nrBlocks]
    refine h.exclusive.exchange ino (fun j hj => (others j hj).holds_eq h) nodup ?_ free
    intro b hb
    refine (new b hb).imp_right fun hfree => ⟨⟨Nat.pos_of_ne_zero ?_, hfree.1⟩, hfree.2⟩
    rintro rfl
    rw [h.blocks.zero_used] at hfree
    cases hfree.2

/-- An inode other than the one created or removed under `dir`. -/
theorem kept_of_parent (h : SharedInv w) {dir : Nat} {d : Inode} (parent : LiveDir w dir d)
    (up : ∃ d', w'.icache dir = some d' ∧ Refreshed d d') (inUse : InUse w'.sbi j ↔ InUse w.sbi j)
    (other : j ≠ dir → w'.icache j = w.icache j)
    (frame : ∀ n, live w j = some n → n.indexBlock ≠ d.indexBlock →
      w'.disk n.indexBlock = w.disk n.indexBlock) : Kept w w' j := by
  refine ⟨inUse, fun n hl => ?_⟩
  by_cases hjd : j = dir
  · subst hjd
    obtain rfl : d = n := Option.some.inj (parent.live.symm.trans hl)
    obtain ⟨d', hd', hfresh⟩ := up
    refine ⟨d', hd', hfresh.mode, hfresh.index, hfresh.iBlocks, hfresh.iSize, fun reg => ?_⟩
    rw [sIsreg_of_sIsdir parent.type] at reg
    cases reg
  · refine ⟨n, (other hjd).trans (live_eq_some.mp hl).2, rfl, rfl, rfl, rfl, fun _ => frame n hl ?_⟩
    intro heq
    exact h.exclusive.not_mem hjd (index_mem_holds hl) (heq ▸ index_mem_holds parent.live)

/-! ## Creation and removal, whichever reads fail -/

theorem SharedInv.undone (h : SharedInv w) (u : Undone w w') : SharedInv w' := by
  have hnone : ∀ v : World, live v 0 = none := fun v => if_neg fun hin => absurd hin.1 (lt_irrefl 0)
  have hin : ∀ j, InUse w'.sbi j ↔ InUse w.sbi j := by
    intro j
    rcases Nat.eq_zero_or_pos j with hz | hpos
    · exact ⟨fun h => absurd h.1 (by omega), fun h => absurd h.1 (by omega)⟩
    · exact inUse_congr u.layout (u.inodes j hpos)
  refine h.change 0 u.layout (u.blocks h.blocks) ?_ (fun hin => absurd hin.1 (lt_irrefl 0)) ?_ ?_ ?_ ?_
  · intro j _
    refine ⟨hin j, fun node hl => ?_⟩
    obtain ⟨huse, hc⟩ := live_eq_some.mp hl
    exact ⟨node, (u.icache j huse.2.2).trans hc, rfl, rfl, rfl, rfl, fun _ => by rw [u.disk]⟩
  · intro node hl
    rw [hnone w'] at hl
    cases hl
  · rw [holds_none (hnone w')]
    exact List.nodup_nil
  · rw [holds_none (hnone w')]
    intro b hb
    cases hb
  · intro b hb
    rw [holds_none (hnone w')]
    refine ⟨Or.inl ?_, by simp⟩
    by_contra hused
    rw [u.taken b (by simpa using hused)] at hb
    cases hb

theorem SharedInv.created (h : SharedInv w) {bno mode dir : Nat} {d : Inode}
    (parent : LiveDir w dir d) (c : Created w dir d ino bno mode w') : SharedInv w' := by
  obtain ⟨hin, hout, hholds⟩ := c.holds_eq
  obtain ⟨w₁, new, sbi⟩ := c.new
  obtain ⟨node, init, own⟩ := c.own
  have hl : live w' ino = some node := live_eq_some.mpr ⟨hin, own⟩
  refine h.change ino (sbi ▸ new.layout) (sbi ▸ new.blocks h.blocks) ?_ (fun _ => ⟨node, own⟩) ?_
    ?_ ?_ ?_
  · intro j hj
    have hbit : w'.sbi.ifreeBitmap j = w.sbi.ifreeBitmap j := by
      rw [sbi, new.inodes, clearBit_of_ne _ hj]
    refine kept_of_parent h parent c.up (inUse_congr (sbi ▸ new.layout) hbit) (c.others j hj) ?_
    intro n hl hne
    exact c.frame _ (h.ne_of_free (index_mem_holds hl) new.bno_free) hne
  · intro n hn
    obtain rfl : node = n := Option.some.inj (hl.symm.trans hn)
    exact ⟨by rw [init.dir, init.reg]; exact new.type, fun _ => Or.inl ⟨[], c.shape init⟩⟩
  · rw [hholds]
    exact List.nodup_singleton bno
  · rw [hholds]
    intro b hb
    rw [List.mem_singleton.mp hb]
    exact Or.inr ⟨new.bno_lt, new.bno_free⟩
  · intro b hb
    rw [sbi, new.bitmap] at hb
    rw [hholds, List.mem_singleton]
    by_cases heq : b = bno
    · rw [heq, clearBit_self] at hb
      cases hb
    · rw [clearBit_of_ne _ heq] at hb
      exact ⟨Or.inl hb, heq⟩

theorem ouichefsCreate_shared (h : SharedInv w) {who : Caller} {io : Io} {dir : Nat} {d : Inode}
    {name : List Byte} {mode : Nat} {r : World × Int} (parent : LiveDir w dir d)
    (run : ouichefsCreate w who io dir name mode = some r) : SharedInv r.1 := by
  rcases ouichefsCreate_cases parent (h.used (index_mem_holds parent.live)).taken run with
    ⟨_, hundone, _⟩ | ⟨_, ino, bno, hc, _⟩
  · exact h.undone hundone
  · exact h.created parent hc

theorem SharedInv.removed (h : SharedInv w) {dir : Nat} {d : Inode} {freed : List Nat}
    (parent : LiveDir w dir d) (nodup : freed.Nodup) (sub : ∀ b ∈ freed, b ∈ holds w ino)
    (r : Removed w dir d ino freed w') : SharedInv w' := by
  obtain ⟨sbi, released, blocks, _⟩ := r.released
  have hnone : live w' ino = none := if_neg r.not_inUse
  have hok : BlocksOk sbi := released.blocksOk h.blocks nodup (fun b hb => h.used (sub b hb))
  refine h.change ino r.layout (blocks.blocksOk hok) ?_ (fun hin => absurd hin r.not_inUse)
    ?_ ?_ ?_ ?_
  · intro j hj
    refine kept_of_parent h parent r.up (r.inUse_iff hj) (r.others j hj) ?_
    exact fun n hl => r.frame _ (h.exclusive.not_mem hj (index_mem_holds hl))
  · intro n hn
    rw [hnone] at hn
    cases hn
  · rw [holds_none hnone]
    exact List.nodup_nil
  · rw [holds_none hnone]
    intro b hb
    cases hb
  · intro b hb
    rw [blocks.bitmap, released.bitmap b, Bool.or_eq_true, decide_eq_true_iff] at hb
    rw [holds_none hnone]
    exact ⟨hb.imp_right (sub b), by simp⟩

/-- The file of a live regular inode that has a block count. -/
theorem SharedInv.shape (h : SharedInv w) (hl : live w ino = some node)
    (reg : sIsreg node.iMode = true) (counted : 1 ≤ node.iBlocks) (io : Io) :
    ∃ es, Shape (w.ctx node io) es ∧ Held (w.ctx node io) es ∧
      holds w ino = node.indexBlock :: numbers es := by
  rcases (h.settled ino node hl).file reg with ⟨es, hshape⟩ | ⟨hzero, _⟩
  · have hholds : holds w ino = node.indexBlock :: numbers es := by
      rw [holds_live hl, nodeBlocks, if_pos reg, hshape.entries_eq]
    refine ⟨es, hshape.congr (fun _ _ => rfl) rfl rfl, ⟨h.blocks, ?_, ?_⟩, hholds⟩
    · intro b hb
      exact h.used (by rw [hholds]; exact List.mem_cons_of_mem _ hb)
    · exact h.used (index_mem_holds hl)
  · omega

theorem ouichefsUnlink_shared (h : SharedInv w) {io : Io} {dir : Nat} {d : Inode} {r : World × Int}
    (parent : LiveDir w dir d) (own : live w ino = some node) (reg : sIsreg node.iMode = true)
    (counted : 1 ≤ node.iBlocks) (run : ouichefsUnlink w io dir ino = some r) : SharedInv r.1 := by
  have hne : ino ≠ dir := by
    rintro rfl
    obtain rfl : node = d := Option.some.inj (own.symm.trans parent.live)
    rw [sIsreg_of_sIsdir parent.type] at reg
    cases reg
  have happart : node.indexBlock ≠ d.indexBlock := by
    intro heq
    exact h.exclusive.not_mem hne (index_mem_holds own) (heq ▸ index_mem_holds parent.live)
  obtain ⟨es, hshape, hheld, hholds⟩ := h.shape own reg counted calmIo
  have hdir : sIsdir node.iMode = false := by
    by_contra hd
    rw [sIsreg_of_sIsdir (by simpa using hd)] at reg
    cases reg
  have hrem : Removable w ino node (numbers es) :=
    ⟨hholds, hholds ▸ fun b hb => Nat.le_of_lt (h.used hb).lt,
      Or.inr ⟨hdir, es, hshape, hheld.nonzero, rfl⟩⟩
  have hnodup := h.exclusive.nodup ino
  rw [hholds, List.nodup_cons] at hnodup
  rcases ouichefsUnlink_cases parent own hne happart hrem run with ⟨hsame, _⟩ | ⟨freed, hfreed, hr⟩
  · rw [hsame]
    exact h
  -- the blocks given back are all of the file's, or its index block alone
  refine h.removed parent ?_ ?_ hr
  · refine List.Nodup.append ?_ (List.nodup_singleton _) ?_
    · rcases hfreed with rfl | ⟨_, rfl⟩
      · exact hnodup.2
      · exact List.nodup_nil
    · intro b hb hidx
      rw [List.mem_singleton] at hidx
      rcases hfreed with rfl | ⟨_, rfl⟩
      · exact hnodup.1 (hidx ▸ hb)
      · cases hb
  · intro b hb
    rw [hholds]
    rcases List.mem_append.mp hb with hdata | hidx
    · rcases hfreed with rfl | ⟨_, rfl⟩
      · exact List.mem_cons_of_mem _ hdata
      · cases hdata
    · rw [List.mem_singleton.mp hidx]
      exact List.mem_cons_self

/-! ## Calls on open files -/

/-- A call as the rest of the volume sees it. The file it leaves is packed or has
been cleared. -/
structure Confined (s t : Ctx) : Prop where
  ok : BlocksOk t.sbi
  layout : SameLayout s.sbi t.sbi
  inodes : t.sbi.ifreeBitmap = s.sbi.ifreeBitmap
  index : t.node.indexBlock = s.node.indexBlock
  mode : t.node.iMode = s.node.iMode
  file : (∃ es, Shape t es) ∨ (t.node.iBlocks = 0 ∧ t.node.iSize = 0)
  frame : ∀ b, b ≠ s.node.indexBlock → b ∉ numbers s.entries → b ∉ numbers t.entries →
    t.disk b = s.disk b
  new : ∀ b ∈ numbers t.entries, b ∈ numbers s.entries ∨
    b < s.sbi.nrBlocks ∧ s.sbi.bfreeBitmap b = true
  free : ∀ b, t.sbi.bfreeBitmap b = true →
    (s.sbi.bfreeBitmap b = true ∨ b ∈ numbers s.entries) ∧ b ∉ numbers t.entries

/-- An index without a block count names no block. -/
theorem entries_nil {s : Ctx} (h : s.node.iBlocks = 0) : s.entries = [] := by
  unfold Ctx.entries
  rw [h]
  rfl

theorem SharedInv.confined (h : SharedInv w) (hl : live w ino = some node)
    (reg : sIsreg node.iMode = true) {io : Io} {t : Ctx} (c : Confined (w.ctx node io) t) :
    SharedInv (w.withCtx ino t) := by
  have hreg : sIsreg t.node.iMode = true := by rw [c.mode]; exact reg
  have hindex : t.node.indexBlock = node.indexBlock := c.index
  have hin : InUse t.sbi ino :=
    (inUse_congr c.layout (by rw [c.inodes])).mpr (live_eq_some.mp hl).1
  have hl' : live (w.withCtx ino t) ino = some t.node :=
    live_eq_some.mpr ⟨hin, by simp [World.withCtx, World.cache]⟩
  have hholds : holds w ino = node.indexBlock :: numbers (w.ctx node io).entries := by
    rw [holds_live hl, nodeBlocks, if_pos reg]
    rfl
  have hholds' : holds (w.withCtx ino t) ino = node.indexBlock :: numbers t.entries := by
    rw [holds_live hl', nodeBlocks, if_pos hreg, hindex]
    rfl
  have hnodup := h.exclusive.nodup ino
  rw [hholds, List.nodup_cons] at hnodup
  refine h.change ino c.layout c.ok ?_ (fun _ => ⟨t.node, (live_eq_some.mp hl').2⟩) ?_ ?_ ?_ ?_
  · intro k hk
    have hcache : (w.withCtx ino t).icache k = w.icache k := by
      simp [World.withCtx, World.cache, hk]
    refine ⟨inUse_congr c.layout (by rw [show (w.withCtx ino t).sbi = t.sbi from rfl, c.inodes]; rfl),
      fun n hn => ⟨n, hcache.trans (live_eq_some.mp hn).2, rfl, rfl, rfl, rfl, fun _ => ?_⟩⟩
    have hmem := index_mem_holds hn
    have hnot := h.exclusive.not_mem hk hmem
    rw [hholds, List.mem_cons, not_or] at hnot
    refine c.frame _ hnot.1 hnot.2 fun hnew => ?_
    rcases c.new _ hnew with hold | ⟨_, hfree⟩
    · exact hnot.2 hold
    · exact h.ne_of_free hmem hfree rfl
  · intro n hn
    obtain rfl : t.node = n := Option.some.inj (hl'.symm.trans hn)
    refine ⟨Or.inr hreg, fun _ => c.file.imp_left ?_⟩
    rintro ⟨es, hshape⟩
    exact ⟨es, hshape.congr (fun _ _ => rfl) rfl rfl⟩
  · rw [hholds', List.nodup_cons]
    rcases c.file with ⟨es, hshape⟩ | ⟨hzero, _⟩
    · rw [hshape.entries_eq]
      exact ⟨hindex ▸ hshape.apart, hshape.distinct⟩
    · rw [entries_nil hzero]
      simp
  · rw [hholds, hholds']
    intro b hb
    rcases List.mem_cons.mp hb with heq | hmem
    · exact Or.inl (heq ▸ List.mem_cons_self)
    · exact (c.new b hmem).imp_left (List.mem_cons_of_mem _)
  · intro b hb
    obtain ⟨hwas, hnot⟩ := c.free b hb
    rw [hholds, hholds', List.mem_cons, List.mem_cons, not_or]
    refine ⟨hwas.imp_right Or.inr, ?_, hnot⟩
    rintro rfl
    rcases hwas with hfree | hold
    · exact h.ne_of_free (index_mem_holds hl) hfree rfl
    · exact hnodup.1 hold

end

section

variable {s t : Ctx}

/-- The call has changed nothing that others see. -/
theorem Confined.refl (ok : BlocksOk s.sbi) (used : ∀ b ∈ numbers s.entries, Used s.sbi b)
    (file : (∃ es, Shape s es) ∨ (s.node.iBlocks = 0 ∧ s.node.iSize = 0)) : Confined s s := by
  refine ⟨ok, SameLayout.refl _, rfl, rfl, rfl, file, fun _ _ _ _ => rfl, fun _ hb => Or.inl hb,
    fun b hb => ⟨Or.inl hb, fun hmem => ?_⟩⟩
  rw [(used b hmem).taken] at hb
  cases hb

/-- A call on an insert-mode file. -/
theorem Effect.confined {es es' : List Word} (e : Effect s es t es') (shape : Shape s es) :
    Confined s t := by
  refine ⟨e.inv.held.ok, e.layout, e.inodes, e.index, e.mode, Or.inl ⟨es', e.inv.shape⟩, ?_, ?_, ?_⟩
  · rw [shape.entries_eq, e.inv.shape.entries_eq]
    exact e.frame
  · rw [shape.entries_eq, e.inv.shape.entries_eq]
    exact e.new
  · rw [shape.entries_eq, e.inv.shape.entries_eq]
    exact fun b => (e.free b).mp

/-- A plain write. -/
theorem Lengthened.confined {bs fresh : List Nat} (l : Lengthened s bs fresh t)
    (h : PlainInv s bs) : Confined s t := by
  have hold : numbers s.entries = bs := by rw [h.shape.entries_eq, h.numbers]
  have hnew : numbers t.entries = bs ++ fresh := by rw [l.plain.shape.entries_eq, l.plain.numbers]
  refine ⟨l.allocated.ok, l.allocated.layout, l.allocated.inodes.1, l.index, l.mode,
    Or.inl ⟨_, l.plain.shape⟩, ?_, ?_, ?_⟩
  · rw [hnew]
    exact fun b hi _ => l.frame b hi
  · rw [hold, hnew]
    intro b hb
    exact (List.mem_append.mp hb).imp_right fun hf => (l.allocated.were_free b hf).2
  · rw [hold, hnew]
    intro b hb
    rw [l.allocated.bitmap b] at hb
    simp only [Bool.and_eq_true, Bool.not_eq_true', decide_eq_false_iff_not] at hb
    refine ⟨Or.inl hb.1, ?_⟩
    rw [List.mem_append, not_or]
    refine ⟨fun hmem => ?_, hb.2⟩
    have hused := h.held.data b (by rw [h.numbers]; exact hmem)
    rw [hused.taken] at hb
    cases hb.1

/-- An open call. A truncation needs a zero entry behind the entries to stop at. -/
theorem ouichefsOpen_confined {es : List Word} {fuel fFlags : Nat} {r : Ctx × Int}
    (shape : Shape s es) (held : Held s es) (few : es.length < 1024)
    (run : ouichefsOpen fuel s fFlags = some r) : Confined s r.1 := by
  have hused : ∀ b ∈ numbers s.entries, Used s.sbi b := by
    rw [shape.entries_eq]
    exact held.data
  have hsame := Confined.refl held.ok hused (Or.inl ⟨es, shape⟩)
  unfold ouichefsOpen at run
  simp only at run
  split at run
  · split at run
    · obtain ⟨u, hit, rfl⟩ := Option.map_eq_some_iff.mp run
      obtain ⟨v, hv, hc⟩ := releaseLoop_spec es 0 s.popBread
        (fun i hi => by rw [Nat.zero_add]; exact shape.slots i (by omega)) held.nonzero
        (by
          rw [Nat.zero_add]
          refine (shape.slots es.length few).trans ?_
          simp)
        (fun b hb => Nat.le_of_lt (held.data b hb).lt)
      obtain rfl : u = v := by
        have hu := iterate_mono (Nat.le_max_left fuel (es.length + 1)) hit
        rw [iterate_mono (Nat.le_max_right fuel (es.length + 1)) hv] at hu
        exact (Option.some.inj hu).symm
      have hnone : ({ u with node := { u.node with iSize := 0, iBlocks := 0 } } : Ctx).entries = [] :=
        entries_nil rfl
      refine ⟨hc.released.blocksOk held.ok shape.distinct held.data, hc.released.layout,
        hc.released.inodes.1, hc.frame.index, by rw [hc.node]; rfl, Or.inr ⟨rfl, rfl⟩, ?_, ?_, ?_⟩
      · exact fun b hi _ _ => hc.frame.disk b hi
      · rw [hnone]
        intro b hb
        cases hb
      · rw [hnone, shape.entries_eq]
        intro b hb
        change u.sbi.bfreeBitmap b = true at hb
        rw [hc.released.bitmap b, Bool.or_eq_true, decide_eq_true_iff] at hb
        exact ⟨hb, by simp⟩
    · cases run
      exact ⟨hsame.ok, hsame.layout, hsame.inodes, rfl, rfl,
        Or.inl ⟨es, shape.congr (fun _ _ => rfl) rfl rfl⟩, fun _ _ _ _ => rfl, hsame.new, hsame.free⟩
  · cases run
    exact hsame

/-- Without `O_TRUNC`, and on an empty file, nothing happens. -/
theorem ouichefsOpen_same {fuel fFlags : Nat} (h : fFlags &&& oTrunc = 0 ∨ s.node.iSize = 0) :
    ouichefsOpen fuel s fFlags = some (s, 0) := by
  unfold ouichefsOpen
  simp only
  rw [if_neg]
  rintro ⟨_, htrunc, hne⟩
  rcases h with hz | hz
  · exact htrunc hz
  · exact hne hz

end

end Sharing
