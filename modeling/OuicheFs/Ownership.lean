import OuicheFs.Super
import OuicheFs.FileRun
import OuicheFs.Lib.Ledger

/-!
# Who owns a block

On a mounted volume a block is free, one of the blocks in front of the data
area, the index block of a live inode, or named by an entry of a live regular
file. The operations change the holdings of one inode at a time.
-/
namespace Ownership

open CInt Bits ByteBuffer IndexEntry Allocator FileContext Layout OuicheInode OuicheSuper Mkfs
  FileRun Ledger

/-! ## Live inodes and their blocks -/

def InUse (sbi : SbInfo) (ino : Nat) : Prop :=
  0 < ino ∧ ino < sbi.nrInodes ∧ sbi.ifreeBitmap ino = false

instance (sbi : SbInfo) (ino : Nat) : Decidable (InUse sbi ino) :=
  inferInstanceAs (Decidable (_ ∧ _ ∧ _))

/-- The inode behind a number in use. -/
def live (w : World) (ino : Nat) : Option Inode := if InUse w.sbi ino then w.icache ino else none

theorem live_eq_some {w : World} {ino : Nat} {node : Inode} :
    live w ino = some node ↔ InUse w.sbi ino ∧ w.icache ino = some node := by
  unfold live
  by_cases h : InUse w.sbi ino
  · rw [if_pos h]
    exact ⟨fun hc => ⟨h, hc⟩, fun hc => hc.2⟩
  · rw [if_neg h]
    exact ⟨fun hc => (by cases hc), fun hc => absurd hc.1 h⟩

/-- The blocks an inode names: its index block, and the data blocks of a
regular file. -/
def nodeBlocks (w : World) (node : Inode) : List Nat :=
  node.indexBlock :: if sIsreg node.iMode then numbers (w.ctx node calmIo).entries else []

def holds (w : World) (ino : Nat) : List Nat :=
  match live w ino with
  | some node => nodeBlocks w node
  | none => []

theorem holds_live {w : World} {ino : Nat} {node : Inode} (h : live w ino = some node) :
    holds w ino = nodeBlocks w node := by
  unfold holds
  rw [h]

theorem holds_none {w : World} {ino : Nat} (h : live w ino = none) : holds w ino = [] := by
  unfold holds
  rw [h]

theorem index_mem_holds {w : World} {ino : Nat} {node : Inode} (h : live w ino = some node) :
    node.indexBlock ∈ holds w ino := by
  rw [holds_live h]
  exact List.mem_cons_self

/-- The first block behind superblock, inode store and bitmaps. -/
def metaEnd (sbi : SbInfo) : Nat :=
  1 + sbi.nrIstoreBlocks + sbi.nrIfreeBlocks + sbi.nrBfreeBlocks

/-- A live inode is a directory or a regular file with a packed index. -/
structure Sound (w : World) (node : Inode) : Prop where
  type : sIsdir node.iMode = true ∨ sIsreg node.iMode = true
  file : sIsreg node.iMode = true →
    ∃ es, Shape (w.ctx node calmIo) es ∧ node.iSize = total es

structure WorldInv (w : World) : Prop where
  blocks : BlocksOk w.sbi
  small : w.sbi.nrBlocks ≤ 524288
  cached : ∀ ino, InUse w.sbi ino → ∃ node, w.icache ino = some node
  sound : ∀ ino node, live w ino = some node → Sound w node
  orphans : ∀ ino node, ¬ InUse w.sbi ino → w.icache ino = some node →
    node.indexBlock = 0 ∧ node.iBlocks = 0
  ledger : Partition (· < w.sbi.nrBlocks) (w.sbi.bfreeBitmap · = true) (· < metaEnd w.sbi) (holds w)

theorem sIsreg_of_sIsdir {mode : Nat} (h : sIsdir mode = true) : sIsreg mode = false := by
  unfold sIsdir at h
  unfold sIsreg
  rw [decide_eq_true_iff] at h
  rw [h]
  decide

section

variable {w w' : World} {ino j : Nat} {node : Inode}

theorem WorldInv.used (h : WorldInv w) {b : Nat} (hb : b ∈ holds w ino) :
    Used w.sbi b ∧ metaEnd w.sbi ≤ b := by
  obtain ⟨hlt, hfree, hmeta⟩ := h.ledger.held ino b hb
  have hge : metaEnd w.sbi ≤ b := Nat.le_of_not_lt hmeta
  have hpos : 0 < metaEnd w.sbi := by
    unfold metaEnd
    omega
  exact ⟨⟨by omega, hlt, Bool.eq_false_iff.mpr hfree⟩, hge⟩

/-- The file of a live regular inode, seen by a call. -/
theorem WorldInv.fileInv (h : WorldInv w) (hl : live w ino = some node)
    (reg : sIsreg node.iMode = true) (io : Io) :
    ∃ es, FileInv (w.ctx node io) es ∧ holds w ino = node.indexBlock :: numbers es := by
  obtain ⟨es, hshape, hsize⟩ := (h.sound ino node hl).file reg
  have hholds : holds w ino = node.indexBlock :: numbers es := by
    rw [holds_live hl, nodeBlocks, if_pos reg, hshape.entries_eq]
  refine ⟨es, ⟨hshape.congr (fun _ _ => rfl) rfl rfl, ⟨h.blocks, ?_, ?_⟩, hsize, h.small⟩, hholds⟩
  · intro b hb
    exact (h.used (by rw [hholds]; exact List.mem_cons_of_mem _ hb)).1
  · exact (h.used (index_mem_holds hl)).1

/-- Another inode keeps its file: size, block count and index are the same. -/
structure SameFile (w w' : World) (node node' : Inode) : Prop where
  mode : node'.iMode = node.iMode
  index : node'.indexBlock = node.indexBlock
  iBlocks : node'.iBlocks = node.iBlocks
  iSize : node'.iSize = node.iSize
  words : sIsreg node.iMode = true → w'.disk node.indexBlock = w.disk node.indexBlock

theorem SameFile.blocks {node' : Inode} (h : SameFile w w' node node')
    (reg : sIsreg node.iMode = true) (i : Nat) :
    (w'.ctx node' calmIo).blocks i = (w.ctx node calmIo).blocks i :=
  blocks_congr h.index (h.words reg) i

theorem SameFile.nodeBlocks_eq {node' : Inode} (h : SameFile w w' node node') :
    nodeBlocks w' node' = nodeBlocks w node := by
  unfold nodeBlocks
  rw [h.mode, h.index]
  by_cases reg : sIsreg node.iMode = true
  · have hentries : (w'.ctx node' calmIo).entries = (w.ctx node calmIo).entries := by
      unfold Ctx.entries
      change (List.range (node'.iBlocks - 1)).map _ = (List.range (node.iBlocks - 1)).map _
      rw [h.iBlocks]
      exact List.map_congr_left fun i _ => h.blocks reg i
    rw [hentries]
  · rw [if_neg reg, if_neg reg]

theorem SameFile.sound {node' : Inode} (h : SameFile w w' node node') (s : Sound w node) :
    Sound w' node' := by
  refine ⟨by rw [h.mode]; exact s.type, ?_⟩
  rw [h.mode]
  intro reg
  obtain ⟨es, hshape, hsize⟩ := s.file reg
  refine ⟨es, hshape.congr (fun i _ => h.blocks reg i) h.iBlocks h.index, ?_⟩
  rw [h.iSize]
  exact hsize

/-- Nothing changes for `j`, except for times and links. -/
structure Untouched (w w' : World) (j : Nat) : Prop where
  inUse : InUse w'.sbi j ↔ InUse w.sbi j
  absent : w.icache j = none → w'.icache j = none
  present : ∀ node, w.icache j = some node → ∃ node', w'.icache j = some node' ∧
    SameFile w w' node node'

theorem Untouched.live_of (h : Untouched w w' j) {node' : Inode} :
    live w' j = some node' → ∃ node, live w j = some node ∧ SameFile w w' node node' := by
  intro hl
  obtain ⟨hin, hc⟩ := live_eq_some.mp hl
  cases hold : w.icache j with
  | none =>
    rw [h.absent hold] at hc
    cases hc
  | some node =>
    obtain ⟨node'', hc', hsame⟩ := h.present node hold
    obtain rfl : node' = node'' := Option.some.inj (hc.symm.trans hc')
    exact ⟨node, live_eq_some.mpr ⟨h.inUse.mp hin, hold⟩, hsame⟩

theorem Untouched.holds_eq (h : Untouched w w' j) : holds w' j = holds w j := by
  cases hl : live w' j with
  | some node' =>
    obtain ⟨node, hold, hsame⟩ := h.live_of hl
    rw [holds_live hl, holds_live hold, hsame.nodeBlocks_eq]
  | none =>
    have hold : live w j = none := by
      cases hw : live w j with
      | none => rfl
      | some node =>
        obtain ⟨hin, hc⟩ := live_eq_some.mp hw
        obtain ⟨node', hc', _⟩ := h.present node hc
        rw [live_eq_some.mpr ⟨h.inUse.mpr hin, hc'⟩] at hl
        cases hl
    rw [holds_none hl, holds_none hold]

/-- A change that concerns the inode `ino` alone keeps the invariant, if it
leaves that inode in order and settles its blocks with the allocator. -/
theorem WorldInv.change (h : WorldInv w) (ino : Nat) (layout : SameLayout w.sbi w'.sbi)
    (blocks : BlocksOk w'.sbi) (others : ∀ j, j ≠ ino → Untouched w w' j)
    (cached : InUse w'.sbi ino → ∃ node, w'.icache ino = some node)
    (sound : ∀ node, live w' ino = some node → Sound w' node)
    (orphan : ∀ node, ¬ InUse w'.sbi ino → w'.icache ino = some node →
      node.indexBlock = 0 ∧ node.iBlocks = 0)
    (nodup : (holds w' ino).Nodup)
    (new : ∀ b ∈ holds w' ino, b ∈ holds w ino ∨
      b < w.sbi.nrBlocks ∧ w.sbi.bfreeBitmap b = true)
    (free : ∀ b, w'.sbi.bfreeBitmap b = true ↔
      (w.sbi.bfreeBitmap b = true ∨ b ∈ holds w ino) ∧ b ∉ holds w' ino) : WorldInv w' := by
  have hmeta : metaEnd w'.sbi = metaEnd w.sbi := by
    unfold metaEnd
    rw [layout.nrIstoreBlocks, layout.nrIfreeBlocks, layout.nrBfreeBlocks]
  refine ⟨blocks, layout.nrBlocks ▸ h.small, ?_, ?_, ?_, ?_⟩
  · intro j hj
    by_cases hji : j = ino
    · rw [hji] at hj ⊢
      exact cached hj
    · obtain ⟨node, hc⟩ := h.cached j ((others j hji).inUse.mp hj)
      obtain ⟨node', hc', _⟩ := (others j hji).present node hc
      exact ⟨node', hc'⟩
  · intro j node' hl
    by_cases hji : j = ino
    · rw [hji] at hl
      exact sound node' hl
    · obtain ⟨node, hold, hsame⟩ := (others j hji).live_of hl
      exact hsame.sound (h.sound j node hold)
  · intro j node' hj hc'
    by_cases hji : j = ino
    · rw [hji] at hj hc'
      exact orphan node' hj hc'
    · cases hold : w.icache j with
      | none =>
        rw [(others j hji).absent hold] at hc'
        cases hc'
      | some node =>
        obtain ⟨node'', hc'', hsame⟩ := (others j hji).present node hold
        obtain rfl : node' = node'' := Option.some.inj (hc'.symm.trans hc'')
        rw [hsame.index, hsame.iBlocks]
        exact h.orphans j node (fun hin => hj ((others j hji).inUse.mpr hin)) hold
  · rw [layout.nrBlocks, hmeta]
    exact h.ledger.exchange ino (fun j hj => (others j hj).holds_eq) nodup new free

/-- The index block of another inode is neither free nor held by `ino`. -/
theorem WorldInv.index_apart (h : WorldInv w) (ne : j ≠ ino) (hc : w.icache j = some node) :
    node.indexBlock ∉ holds w ino ∧ w.sbi.bfreeBitmap node.indexBlock = false := by
  by_cases hin : InUse w.sbi j
  · have hmem := index_mem_holds (live_eq_some.mpr ⟨hin, hc⟩)
    exact ⟨h.ledger.not_mem ne hmem, (h.used hmem).1.taken⟩
  · rw [(h.orphans j node hin hc).1]
    refine ⟨fun hmem => absurd (h.used hmem).1.pos (lt_irrefl 0), h.blocks.zero_used⟩

/-! ## Calls on open files -/

/-- The holdings of an inode after a call on its file. -/
theorem holds_withCtx {t : Ctx} {es' : List Word} (hin : InUse t.sbi ino)
    (shape : Shape t es') (reg : sIsreg t.node.iMode = true) :
    live (w.withCtx ino t) ino = some t.node ∧
      holds (w.withCtx ino t) ino = t.node.indexBlock :: numbers es' := by
  have hl : live (w.withCtx ino t) ino = some t.node :=
    live_eq_some.mpr ⟨hin, by simp [World.withCtx, World.cache]⟩
  have hs : Shape ((w.withCtx ino t).ctx t.node calmIo) es' := shape.congr (fun _ _ => rfl) rfl rfl
  refine ⟨hl, ?_⟩
  rw [holds_live hl, nodeBlocks, if_pos reg, hs.entries_eq]

theorem inUse_congr {a b : SbInfo} (layout : SameLayout a b)
    (inodes : b.ifreeBitmap j = a.ifreeBitmap j) : InUse b j ↔ InUse a j := by
  unfold InUse
  rw [layout.nrInodes, inodes]

theorem WorldInv.effect (h : WorldInv w) (hl : live w ino = some node)
    (reg : sIsreg node.iMode = true) {es es' : List Word} {t : Ctx}
    (hholds : holds w ino = node.indexBlock :: numbers es)
    (e : Effect (w.ctx node calmIo) es t es') :
    WorldInv (w.withCtx ino t) := by
  have hreg : sIsreg t.node.iMode = true := by rw [e.mode]; exact reg
  have hindex : t.node.indexBlock = node.indexBlock := e.index
  have hin : InUse t.sbi ino :=
    (inUse_congr e.layout (by rw [e.inodes])).mpr (live_eq_some.mp hl).1
  obtain ⟨hl', hholds'⟩ := holds_withCtx (w := w) hin e.inv.shape hreg
  rw [hindex] at hholds'
  refine h.change ino e.layout e.inv.held.ok ?_ ?_ ?_ ?_ ?_ ?_ ?_
  · intro k hk
    have hcache : (w.withCtx ino t).icache k = w.icache k := by
      simp [World.withCtx, World.cache, hk]
    refine ⟨inUse_congr e.layout (by rw [show (w.withCtx ino t).sbi = t.sbi from rfl, e.inodes]; rfl),
      fun hc => hcache.trans hc, fun node' hc => ⟨node', hcache.trans hc, rfl, rfl, rfl, rfl, ?_⟩⟩
    intro _
    obtain ⟨hnot, hnfree⟩ := h.index_apart hk hc
    rw [hholds, List.mem_cons, not_or] at hnot
    refine e.frame _ hnot.1 hnot.2 fun hmem => ?_
    rcases e.new _ hmem with hold | ⟨_, hfree⟩
    · exact hnot.2 hold
    · rw [show (w.ctx node calmIo).sbi = w.sbi from rfl, hnfree] at hfree
      cases hfree
  · exact fun _ => ⟨t.node, (live_eq_some.mp hl').2⟩
  · intro node' hn
    obtain rfl : t.node = node' := Option.some.inj (hl'.symm.trans hn)
    exact ⟨Or.inr hreg, fun _ => ⟨es', e.inv.shape.congr (fun _ _ => rfl) rfl rfl, e.inv.size⟩⟩
  · exact fun node' hno _ => absurd hin hno
  · rw [hholds', List.nodup_cons]
    exact ⟨hindex ▸ e.inv.shape.apart, e.inv.shape.distinct⟩
  · rw [hholds, hholds']
    intro b hb
    rcases List.mem_cons.mp hb with heq | hmem
    · exact Or.inl (heq ▸ List.mem_cons_self)
    · rcases e.new b hmem with hold | hfree
      · exact Or.inl (List.mem_cons_of_mem _ hold)
      · exact Or.inr hfree
  · rw [hholds, hholds']
    intro b
    have hb := e.free b
    have hidx : w.sbi.bfreeBitmap node.indexBlock = false := (h.used (index_mem_holds hl)).1.taken
    have hidx' : t.sbi.bfreeBitmap node.indexBlock = false := hindex ▸ e.inv.held.index.taken
    change t.sbi.bfreeBitmap b = true ↔ _
    by_cases heq : b = node.indexBlock
    · rw [heq, hidx']
      simp
    · simp only [List.mem_cons, heq, false_or]
      exact hb

end

end Ownership
