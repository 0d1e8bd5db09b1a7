import OuicheFs.Faults
import OuicheFs.PageCache

/-!
# A file under the page cache, among others

While one file of a volume is written through the page cache, all other calls go on,
and any of their reads may fail. Seen from the others the blocks behind the pages are
lost ones, which no call gives to anybody or writes to. So the table of the file
survives, and the removal of the file finds all of its blocks.
-/
namespace PagedFile

open CInt Bits ByteBuffer IndexEntry Allocator FileContext Layout OuicheFile OuicheWrite OuicheInode
  OuicheSuper Mkfs FileRun Ledger Ownership Lifecycle VolumeRun Hierarchy WholeVolume FileSystem FileTree
  Sharing Remount Faults PageCache

/-- The file `ino` with the table of its pages, the blocks of which nobody else has. -/
structure PagedInv (w : World) (ino : Nat) (node : Inode) : Prop where
  live : live w ino = some node
  reg : sIsreg node.iMode = true
  pages : PageInv (w.ctx node calmIo)
  faults : FaultInv (cleared (some ino) w)
  lost : ∀ i b, mapped (w.ctx node calmIo) i = some b →
    metaEnd w.sbi ≤ b ∧ ∀ j, b ∉ holds (cleared (some ino) w) j

/-- A step on the pages of the file `ino`, or a call about another inode. -/
inductive VolumeStep (step : Ctx → Event → Ctx → Prop) (ino : Nat) : World → Event → World → Prop
  | paged (w : World) (node : Inode) (e : Event) (t : Ctx) :
      live w ino = some node → step (w.ctx node calmIo) e t →
      VolumeStep step ino w e (w.withCtx ino t)
  | other (w w' : World) (k : Nat) :
      k ≠ ino → FaultStep w k w' → VolumeStep step ino w .quiet w'

section

variable {w w' : World} {ino j k : Nat} {node : Inode} {t : Ctx}

theorem holds_cleared_self (own : live w ino = some node) (reg : sIsreg node.iMode = true) :
    holds (cleared (some ino) w) ino = [node.indexBlock] := by
  rw [holds_live (live_cleared_self own), nodeBlocks, if_pos reg]
  rfl

theorem icache_cleared_withCtx (t : Ctx) (ne : j ≠ ino) :
    (cleared (some ino) (w.withCtx ino t)).icache j = (cleared (some ino) w).icache j := by
  simp [cleared, World.withCtx, World.cache, ne]

theorem some_ne_some (ne : k ≠ ino) : some ino ≠ some k :=
  fun h => ne (Option.some.inj h).symm

theorem PagedInv.index_held (h : PagedInv w ino node) :
    node.indexBlock ∈ holds (cleared (some ino) w) ino := by
  rw [holds_cleared_self h.live h.reg]
  exact List.mem_cons_self

/-- A block of the file is neither the index block of another one nor a data block of it. -/
theorem PagedInv.apart (h : PagedInv w ino node) (c : Contained (w.ctx node calmIo) t) (ne : j ≠ ino)
    {b : Nat} (hb : b ∈ holds (cleared (some ino) w) j) :
    b ≠ node.indexBlock ∧ ∀ i, mapped t i ≠ some b := by
  constructor
  · rintro rfl
    exact ne (h.faults.shared.exclusive.disjoint j ino _ hb h.index_held)
  · intro i hi
    rcases c.fresh i b hi with hold | hfree
    · exact (h.lost i b hold).2 j hb
    · exact h.faults.shared.ne_of_free hb hfree rfl

theorem PagedInv.kept (h : PagedInv w ino node) (c : Contained (w.ctx node calmIo) t) (ne : j ≠ ino) :
    Kept (cleared (some ino) w) (cleared (some ino) (w.withCtx ino t)) j := by
  refine ⟨inUse_congr c.layout (congrFun c.inodes j), fun n hl => ⟨n, ?_, rfl, rfl, rfl, rfl, ?_⟩⟩
  · rw [icache_cleared_withCtx t ne]
    exact (live_eq_some.mp hl).2
  · intro _
    obtain ⟨hne, hnot⟩ := h.apart c ne (index_mem_holds hl)
    exact c.frame _ hne hnot

/-- Steps on the pages keep the file and leave all others alone. -/
theorem PagedInv.paged (h : PagedInv w ino node) (hp : PageInv t)
    (c : Contained (w.ctx node calmIo) t) : PagedInv (w.withCtx ino t) ino t.node := by
  have hreg : sIsreg t.node.iMode = true := by
    rw [c.mode]
    exact h.reg
  have hin : InUse t.sbi ino :=
    (inUse_congr c.layout (congrFun c.inodes ino)).mpr (live_eq_some.mp h.live).1
  have hl : Ownership.live (w.withCtx ino t) ino = some t.node := live_eq_some.mpr ⟨hin, if_pos rfl⟩
  have hindex : t.node.indexBlock = node.indexBlock := c.index
  have hkept : ∀ j, j ≠ ino → Kept (cleared (some ino) w) (cleared (some ino) (w.withCtx ino t)) j :=
    fun j hj => h.kept c hj
  refine ⟨hl, hreg, hp.unmoved ⟨rfl, rfl, rfl⟩, ?_, ?_⟩
  · refine h.faults.change ino c.layout hp.blocks hkept (fun _ => ⟨_, (live_eq_some.mp
      (live_cleared_self hl)).2⟩) ?_ ?_ ?_ ?_
    · intro n hn
      obtain rfl := Option.some.inj ((live_cleared_self hl).symm.trans hn)
      exact ⟨Or.inr hreg, fun _ => Or.inr ⟨rfl, rfl⟩⟩
    · rw [holds_cleared_self hl hreg]
      exact List.nodup_singleton _
    · rw [holds_cleared_self hl hreg, holds_cleared_self h.live h.reg, hindex]
      exact fun b hb => Or.inl hb
    · intro b hb
      refine ⟨Or.inl (c.free b hb), ?_⟩
      rw [holds_cleared_self hl hreg, List.mem_singleton]
      rintro rfl
      exact absurd (hp.index.taken.symm.trans hb) (by simp)
  · intro i b hb
    have hused := hp.used i b hb
    have hold : (metaEnd w.sbi ≤ b) ∧ ∀ j, j ≠ ino → b ∉ holds (cleared (some ino) w) j := by
      rcases c.fresh i b hb with hmapped | hfree
      · exact ⟨(h.lost i b hmapped).1, fun j _ => (h.lost i b hmapped).2 j⟩
      · exact ⟨h.faults.metaEnd_le_of_free hfree, fun j _ hj =>
          h.faults.shared.ne_of_free hj hfree rfl⟩
    refine ⟨?_, fun j hj => ?_⟩
    · rw [show metaEnd (w.withCtx ino t).sbi = metaEnd w.sbi from metaEnd_congr c.layout]
      exact hold.1
    · by_cases hji : j = ino
      · subst hji
        rw [holds_cleared_self hl hreg, List.mem_singleton] at hj
        exact hused.2 hj
      · rw [(hkept j hji).holds_eq h.faults.shared] at hj
        exact hold.2 j hji hj

/-- Calls about other inodes leave the file alone, whatever fails in them. -/
theorem PagedInv.other (h : PagedInv w ino node) (ne : k ≠ ino) (step : FaultStep w k w') :
    ∃ node', PagedInv w' ino node' ∧ Elsewhere (w.ctx node calmIo) (w'.ctx node' calmIo) := by
  have hfiles : Files (some ino) w := by
    rintro q ⟨⟩
    exact ⟨node, h.live, h.reg⟩
  rcases step.change hfiles h.faults (some_ne_some ne) with rfl | ⟨m, hc, hm⟩
  · exact ⟨node, h, Refreshed.refl node, rfl, h.pages.blocks, ⟨h.pages.index.taken, rfl⟩,
      fun i b hb => ⟨(h.pages.used i b hb).1.taken, rfl⟩⟩
  have hmi : m ≠ ino := by
    rcases hm with rfl | hnone
    · exact ne
    · rintro rfl
      rw [h.live] at hnone
      cases hnone
  obtain ⟨node', hl, hfresh⟩ := hc.refreshed hmi.symm h.live
  have hd := (hc.cleared hfiles (some_ne_some hmi)).dealt h.faults
  have hf := hd.inv h.faults
  have hreg : sIsreg node'.iMode = true := by
    rw [hfresh.mode]
    exact h.reg
  have hheld := (hd.others ino hmi.symm).holds_eq h.faults.shared
  have hels : Elsewhere (w.ctx node calmIo) (w'.ctx node' calmIo) := by
    refine ⟨hfresh, hd.layout.nrBlocks, hd.blocks, ⟨(hf.used (hheld ▸ h.index_held)).taken, ?_⟩, ?_⟩
    · exact hd.frame ino _ hmi.symm (live_cleared_self h.live) h.reg _ h.index_held
    · intro i b hb
      obtain ⟨hge, hlost⟩ := h.lost i b hb
      have hused := (h.pages.used i b hb).1.taken
      refine ⟨?_, hd.lost b hge hused hlost⟩
      by_contra hfree
      rcases (hd.free b (Bool.not_eq_false _ ▸ hfree)).1 with hwas | hof
      · exact absurd (hwas.symm.trans hused) (by simp)
      · exact hlost m hof
  refine ⟨node', ⟨hl, hreg, h.pages.elsewhere hels, hf, ?_⟩, hels⟩
  intro i b hb
  rw [hels.mapped_eq] at hb
  obtain ⟨hge, hlost⟩ := h.lost i b hb
  refine ⟨?_, fun j hj => ?_⟩
  · rw [show metaEnd w'.sbi = metaEnd w.sbi from metaEnd_congr hd.layout]
    exact hge
  · by_cases hjm : j = m
    · subst hjm
      rcases hd.new b hj with hold | ⟨_, hfree⟩
      · exact hlost j hold
      · exact absurd (hfree.symm.trans (h.pages.used i b hb).1.taken) (by simp)
    · rw [(hd.others j hjm).holds_eq h.faults.shared] at hj
      exact hlost j hj

theorem VolumeStep.grows (h : PagedInv w ino node) {e : Event}
    (step : VolumeStep PageStep ino w e w') :
    ∃ node', PagedInv w' ino node' ∧ Grows (w.ctx node calmIo) e (w'.ctx node' calmIo) := by
  cases step with
  | paged n _ t own step =>
    obtain rfl : node = n := Option.some.inj (h.live.symm.trans own)
    obtain ⟨hp, hg⟩ := step.grows h.pages
    exact ⟨t.node, h.paged hp (step.contained h.pages), hg.kept, hg.bytes, hg.answered, hg.stored⟩
  | other _ k ne step =>
    obtain ⟨node', h', hels⟩ := h.other ne step
    exact ⟨node', h', hels.grows⟩

/-- A file without data blocks has an empty table. -/
theorem VolumeInv.pageInv {t : Tree Nat (List Byte)} (h : VolumeInv w t) (own : live w ino = some node)
    (reg : sIsreg node.iMode = true) (empty : node.iBlocks = 1) (io : Io) :
    PageInv (w.ctx node io) ∧ (∀ i, mapped (w.ctx node io) i = none) ∧ node.iSize = 0 := by
  obtain ⟨es, hinv, _⟩ := h.world.fileInv own reg io
  have hcount : node.iBlocks = es.length + 1 := hinv.shape.iBlocks
  obtain rfl : es = [] := List.length_eq_zero_iff.mp (by omega)
  have hnone : ∀ i, mapped (w.ctx node io) i = none := by
    intro i
    by_cases hi : i < indexSlots
    · exact (mapped_eq_none hi).mpr (hinv.shape.slots i hi)
    · exact if_neg fun hin => hi hin.1
  have hsize : node.iSize = 0 := hinv.size
  have hidle : ∀ {i b}, mapped (w.ctx node io) i ≠ some b := by
    intro i b heq
    rw [hnone] at heq
    cases heq
  refine ⟨⟨hinv.held.ok, hinv.small, hinv.held.index, fun i b hb => absurd hb hidle,
    fun i j b hi => absurd hi hidle, ?_, ?_⟩, hnone, hsize⟩
  · change node.iBlocks ≤ blocksOfSize node.iSize
    rw [empty]
    exact WriteEnd.blocksOfSize_pos _
  · change node.iSize ≤ maxFilesize
    rw [hsize]
    exact Nat.zero_le _

/-- So begins every file that is to be written through the page cache. -/
theorem VolumeInv.paged {t : Tree Nat (List Byte)} (h : VolumeInv w t) (areas : Areas w.sbi)
    (own : live w ino = some node) (reg : sIsreg node.iMode = true) (empty : node.iBlocks = 1) :
    PagedInv w ino node ∧ WholeInv (w.ctx node calmIo) := by
  obtain ⟨hpages, hnone, hsize⟩ := VolumeInv.pageInv h own reg empty calmIo
  have hf := WorldInv.faults h.world areas
  have hidle : ∀ {i b}, mapped (w.ctx node calmIo) i ≠ some b := by
    intro i b heq
    rw [hnone] at heq
    cases heq
  have hholds : holds w ino = [node.indexBlock] := by
    rw [holds_live own, nodeBlocks, if_pos reg]
    change node.indexBlock :: numbers ((List.range (node.iBlocks - 1)).map _) = _
    rw [empty]
    rfl
  have hself := holds_cleared_self own reg
  refine ⟨⟨own, reg, hpages, ?_, fun i b hb => absurd hb hidle⟩, hpages, fun i b hb =>
    absurd hb hidle, ?_⟩
  · refine hf.change ino (SameLayout.refl _) hf.shared.blocks (fun j hj => ⟨Iff.rfl, fun n hn =>
      ⟨n, ?_, rfl, rfl, rfl, rfl, fun _ => rfl⟩⟩) (fun _ => ⟨_, (live_eq_some.mp
      (live_cleared_self own)).2⟩) ?_ ?_ ?_ ?_
    · exact (if_neg (some_ne_some hj)).trans (live_eq_some.mp hn).2
    · intro n hn
      obtain rfl := Option.some.inj ((live_cleared_self own).symm.trans hn)
      exact ⟨Or.inr reg, fun _ => Or.inr ⟨rfl, rfl⟩⟩
    · rw [hself]
      exact List.nodup_singleton _
    · rw [hself, hholds]
      exact fun b hb => Or.inl hb
    · rw [hself, ← hholds]
      exact fun b hb => ⟨Or.inl hb, fun hmem => hf.shared.ne_of_free hmem hb rfl⟩
  · change node.iBlocks = blocksOfSize node.iSize
    rw [empty, hsize]
    rfl

end

end PagedFile
