import OuicheFs.VolumeRun
import OuicheFs.Directory
import OuicheFs.Lib.Hierarchy

/-!
# The tree of directories

The blocks of the live directories, read as lists of links, form a tree: each
number in use is linked once. The operations on inodes are the operations on
that tree; only the order of the links within a block is their own.
-/
namespace DirTree

open CInt Bits ByteBuffer Allocator FileContext OuicheInode OuicheDir OuicheSuper Mkfs Ownership
  Lifecycle VolumeRun Directory Hierarchy

/-- An entry as a link. -/
def link (f : DirFile) : Nat × List Byte := (f.inode, nameOf f)

/-- A live inode and its place in the tree. -/
structure NodeOk (w : World) (t : Tree Nat (List Byte)) (ino : Nat) (node : Inode) : Prop where
  folder : t.folder ino = sIsdir node.iMode
  file : sIsdir node.iMode = false → node.iBlocks = 1
  taken : node.indexBlock < w.sbi.nrBlocks → w.sbi.bfreeBitmap node.indexBlock = false
  block : sIsdir node.iMode = true →
    ∃ es, Packed (w.disk node.indexBlock) es ∧ t.links ino = es.map link
  nlink : sIsdir node.iMode = true → node.iNlink = 2 + t.subfolders ino

/-- The volume holds the tree `t`. -/
structure Represents (w : World) (t : Tree Nat (List Byte)) : Prop where
  range : w.sbi.nrInodes ≤ 4294967296
  tree : Consistent (fun i => 0 < i ∧ i < w.sbi.nrInodes) 1 t
  free : ∀ i, 0 < i → i < w.sbi.nrInodes → (t.free i ↔ w.sbi.ifreeBitmap i = true)
  idle : ∀ i, ¬ InUse w.sbi i → t.folder i = false
  cached : ∀ i, InUse w.sbi i → ∃ node, w.icache i = some node
  nodes : ∀ i node, live w i = some node → NodeOk w t i node
  apart : ∀ i j n n', live w i = some n → live w j = some n' → n.indexBlock = n'.indexBlock → i = j

/-- Nothing changes for `i`. -/
structure Kept (w w' : World) (t t' : Tree Nat (List Byte)) (i : Nat) : Prop where
  inUse : InUse w'.sbi i ↔ InUse w.sbi i
  icache : InUse w.sbi i → w'.icache i = w.icache i
  folder : t'.folder i = t.folder i
  links : t'.links i = t.links i
  subfolders : t'.subfolders i = t.subfolders i
  taken : ∀ node, live w i = some node → node.indexBlock < w'.sbi.nrBlocks →
    w'.sbi.bfreeBitmap node.indexBlock = false
  disk : ∀ node, live w i = some node → w'.disk node.indexBlock = w.disk node.indexBlock

section

variable {w w' : World} {t t' : Tree Nat (List Byte)} {dir ino i j : Nat} {d node : Inode}
  {name : List Byte}

theorem Kept.live_eq (k : Kept w w' t t' i) : live w' i = live w i := by
  unfold live
  by_cases h : InUse w.sbi i
  · rw [if_pos h, if_pos (k.inUse.mpr h), k.icache h]
  · rw [if_neg h, if_neg (fun h' => h (k.inUse.mp h'))]

theorem Kept.nodeOk (k : Kept w w' t t' i) (own : live w i = some node) (ok : NodeOk w t i node) :
    NodeOk w' t' i node := by
  refine ⟨k.folder.trans ok.folder, ok.file, k.taken node own, ?_, ?_⟩
  · rw [k.disk node own, k.links]
    exact ok.block
  · rw [k.subfolders]
    exact ok.nlink

/-- A change that concerns the numbers `a` and `b` keeps the correspondence, if it
leaves these two in order. -/
theorem Represents.change (h : Represents w t) (a b : Nat)
    (nrInodes : w'.sbi.nrInodes = w.sbi.nrInodes)
    (tree : Consistent (fun i => 0 < i ∧ i < w.sbi.nrInodes) 1 t')
    (free : ∀ i, 0 < i → i < w.sbi.nrInodes → (t'.free i ↔ w'.sbi.ifreeBitmap i = true))
    (others : ∀ i, i ≠ a → i ≠ b → Kept w w' t t' i)
    (own : ∀ i, i = a ∨ i = b → (¬ InUse w'.sbi i ∧ t'.folder i = false) ∨
      ∃ node, live w' i = some node ∧ NodeOk w' t' i node)
    (apart : ∀ i j n n', live w' i = some n → live w' j = some n' → n.indexBlock = n'.indexBlock →
      i = j) : Represents w' t' := by
  have hcases : ∀ i, (i = a ∨ i = b) ∨ (i ≠ a ∧ i ≠ b) := by
    intro i
    by_cases ha : i = a
    · exact Or.inl (Or.inl ha)
    · by_cases hb : i = b
      · exact Or.inl (Or.inr hb)
      · exact Or.inr ⟨ha, hb⟩
  refine ⟨nrInodes ▸ h.range, nrInodes ▸ tree, nrInodes ▸ free, ?_, ?_, ?_, apart⟩
  · intro i hi
    rcases hcases i with htouched | ⟨ha, hb⟩
    · rcases own i htouched with ⟨_, hf⟩ | ⟨node, hl, _⟩
      · exact hf
      · exact absurd (live_eq_some.mp hl).1 hi
    · have hk := others i ha hb
      rw [hk.folder]
      exact h.idle i fun hin => hi (hk.inUse.mpr hin)
  · intro i hi
    rcases hcases i with htouched | ⟨ha, hb⟩
    · rcases own i htouched with ⟨hout, _⟩ | ⟨node, hl, _⟩
      · exact absurd hi hout
      · exact ⟨node, (live_eq_some.mp hl).2⟩
    · have hk := others i ha hb
      have hin := hk.inUse.mp hi
      rw [hk.icache hin]
      exact h.cached i hin
  · intro i node hl
    rcases hcases i with htouched | ⟨ha, hb⟩
    · rcases own i htouched with ⟨hout, _⟩ | ⟨node', hl', hok⟩
      · exact absurd (live_eq_some.mp hl).1 hout
      · obtain rfl : node' = node := Option.some.inj (hl'.symm.trans hl)
        exact hok
    · have hk := others i ha hb
      rw [hk.live_eq] at hl
      exact hk.nodeOk hl (h.nodes i node hl)

/-- An inode that is live after a change of its directory was so before, with the same
index block. -/
theorem live_before {dir i : Nat} {d d' n' : Inode} (parent : LiveDir w dir d)
    (up : live w' dir = some d') (index : d'.indexBlock = d.indexBlock)
    (inUse : i ≠ dir → (InUse w'.sbi i ↔ InUse w.sbi i))
    (cache : i ≠ dir → w'.icache i = w.icache i) (hl : live w' i = some n') :
    ∃ n, live w i = some n ∧ n.indexBlock = n'.indexBlock := by
  by_cases hi : i = dir
  · subst hi
    obtain rfl : d' = n' := Option.some.inj (up.symm.trans hl)
    exact ⟨d, parent.live, index.symm⟩
  · obtain ⟨hiu, hic⟩ := live_eq_some.mp hl
    rw [cache hi] at hic
    exact ⟨n', live_eq_some.mpr ⟨(inUse hi).mp hiu, hic⟩, rfl⟩

/-- Inodes with the index blocks they had before are still apart. -/
theorem Represents.apart_of (h : Represents w t)
    (before : ∀ i n', live w' i = some n' →
      ∃ n, live w i = some n ∧ n.indexBlock = n'.indexBlock) (i j : Nat) (n n' : Inode)
    (hi : live w' i = some n) (hj : live w' j = some n') (heq : n.indexBlock = n'.indexBlock) :
    i = j := by
  obtain ⟨m, hm, hmi⟩ := before i n hi
  obtain ⟨m', hm', hmj⟩ := before j n' hj
  exact h.apart i j m m' hm hm' (hmi.trans (heq.trans hmj.symm))

/-- The same with a new inode, whose block has belonged to nobody. -/
theorem Represents.apart_new (h : Represents w t) {bno : Nat}
    (unused : ∀ i n, live w i = some n → n.indexBlock ≠ bno)
    (before : ∀ i n', i ≠ ino → live w' i = some n' →
      ∃ n, live w i = some n ∧ n.indexBlock = n'.indexBlock)
    (new : ∀ n, live w' ino = some n → n.indexBlock = bno) (i j : Nat) (n n' : Inode)
    (hi : live w' i = some n) (hj : live w' j = some n') (heq : n.indexBlock = n'.indexBlock) :
    i = j := by
  by_cases hii : i = ino <;> by_cases hji : j = ino
  · rw [hii, hji]
  · obtain ⟨m, hm, hmeq⟩ := before j n' hji hj
    rw [hii] at hi
    exact absurd (hmeq.trans (heq.symm.trans (new n hi))) (unused j m hm)
  · obtain ⟨m, hm, hmeq⟩ := before i n hii hi
    rw [hji] at hj
    exact absurd (hmeq.trans (heq.trans (new n' hj))) (unused i m hm)
  · obtain ⟨m, hm, hmeq⟩ := before i n hii hi
    obtain ⟨m', hm', hmeq'⟩ := before j n' hji hj
    exact h.apart i j m m' hm hm' (hmeq.trans (heq.trans hmeq'.symm))

/-- A directory in the tree. -/
theorem Represents.directory (h : Represents w t) (own : LiveDir w dir d) :
    t.folder dir = true ∧ d.iNlink = 2 + t.subfolders dir ∧
      ∃ es, Packed (w.disk d.indexBlock) es ∧ t.links dir = es.map link := by
  have hok := h.nodes dir d own.live
  exact ⟨hok.folder.trans own.type, hok.nlink own.type, hok.block own.type⟩

theorem links_at {es : List DirFile} {k : Nat} {f : DirFile} (links : t.links dir = es.map link)
    (at_ : es[k]? = some f) : (t.links dir)[k]? = some (f.inode, nameOf f) := by
  rw [links, List.getElem?_map, at_]
  rfl

theorem names_eq {es : List DirFile} (links : t.links dir = es.map link) :
    t.names dir = es.map nameOf := by
  unfold Tree.names
  rw [links, List.map_map]
  rfl

theorem targets_eq {es : List DirFile} (links : t.links dir = es.map link) :
    t.targets dir = es.map DirFile.inode := by
  unfold Tree.targets
  rw [links, List.map_map]
  rfl

/-- What a directory links is live and not the root. -/
theorem Represents.target (h : Represents w t) (mem : ino ∈ t.targets dir) :
    ∃ node, live w ino = some node ∧ t.folder ino = sIsdir node.iMode := by
  obtain ⟨⟨hpos, hlt⟩, hfree, _⟩ := h.tree.ledger.held dir ino mem
  have hbit : w.sbi.ifreeBitmap ino = false := by
    rw [h.free ino hpos hlt] at hfree
    exact Bool.eq_false_iff.mpr hfree
  have hin : InUse w.sbi ino := ⟨hpos, hlt, hbit⟩
  obtain ⟨node, hc⟩ := h.cached ino hin
  have hl := live_eq_some.mpr ⟨hin, hc⟩
  exact ⟨node, hl, (h.nodes ino node hl).folder⟩

theorem subfolders_le (h : Represents w t) (own : LiveDir w dir d) :
    t.subfolders dir ≤ maxSubfiles := by
  obtain ⟨_, _, es, hes, hlinks⟩ := h.directory own
  unfold Tree.subfolders
  refine List.countP_le_length.trans ?_
  rw [targets_eq hlinks, List.length_map]
  exact hes.length_le

/-- A directory whose block and link count have changed with the tree. -/
theorem nodeOk_parent (own : LiveDir w dir d) {d' : Inode} (refreshed : Refreshed d d')
    {es : List DirFile} (folder : t'.folder dir = true)
    (taken : d.indexBlock < w'.sbi.nrBlocks → w'.sbi.bfreeBitmap d.indexBlock = false)
    (packed : Packed (w'.disk d.indexBlock) es) (links : t'.links dir = es.map link)
    (nlink : d'.iNlink = 2 + t'.subfolders dir) : NodeOk w' t' dir d' := by
  refine ⟨?_, ?_, ?_, fun _ => ⟨es, ?_, links⟩, fun _ => nlink⟩
  · rw [refreshed.mode, own.type]
    exact folder
  · rw [refreshed.mode, own.type]
    rintro ⟨⟩
  · rw [refreshed.index]
    exact taken
  · rw [refreshed.index]
    exact packed

/-- An inode that has just been added to the tree. -/
theorem nodeOk_new (h : Represents w t) {bno mode : Nat} {name : List Byte} (free : t.free ino)
    (ne : ino ≠ dir) (init : Initial mode bno node) (taken : w'.sbi.bfreeBitmap bno = false)
    (empty : Packed (w'.disk bno) []) : NodeOk w' (t.add dir ino name (sIsdir mode)) ino node := by
  have hlinks : (t.add dir ino name (sIsdir mode)).links ino = [] := by
    change Function.update t.links dir _ ino = []
    rw [Function.update_of_ne ne]
    exact h.tree.leaf ino (h.tree.free_leaf ino free)
  refine ⟨?_, fun _ => init.iBlocks, fun _ => ?_, fun _ => ⟨[], ?_, hlinks⟩, fun hdir => ?_⟩
  · change Function.update t.folder ino (sIsdir mode) ino = _
    rw [Function.update_self, init.dir]
  · rw [init.index]
    exact taken
  · rw [init.index]
    exact empty
  · rw [init.dir] at hdir
    unfold Tree.subfolders Tree.targets
    rw [init.links hdir, hlinks]
    rfl

/-- The link count of a directory that gets a member. -/
theorem nlink_add {n s s' : Nat} {isDir : Bool} (before : n = 2 + s) (small : s ≤ maxSubfiles)
    (after : s' = s + isDir.toNat) : (if isDir then u32 (n + 1 : Nat) else n) = 2 + s' := by
  unfold maxSubfiles at small
  cases isDir
  · rw [if_neg (by simp), before, after]
    rfl
  · rw [if_pos rfl, u32_natCast (by omega), before, after]
    rfl

/-- The link count of a directory that loses a member. -/
theorem nlink_remove {n s s' : Nat} {isDir : Bool} (before : n = 2 + s) (small : s ≤ maxSubfiles)
    (after : s = s' + isDir.toNat) : (if isDir then u32 ((n : Int) - 1) else n) = 2 + s' := by
  unfold maxSubfiles at small
  cases isDir
  · rw [if_neg (by simp), before, after]
    rfl
  · rw [Bool.toNat_true] at after
    rw [if_pos rfl, u32_pred (by omega) (by omega)]
    omega

/-! ## Creation -/

theorem Represents.abandoned (h : Represents w t) (a : Abandoned w w') : Represents w' t := by
  have hkept : ∀ i, i ≠ 0 → Kept w w' t t i := by
    intro i hi
    have hin := inUse_congr a.layout (a.inodes i (Nat.pos_of_ne_zero hi))
    refine ⟨hin, fun h => a.icache i h.2.2, rfl, rfl, rfl, ?_, fun _ _ => by rw [a.disk]⟩
    intro node hl hlt
    rw [a.layout.nrBlocks] at hlt
    exact a.taken _ ((h.nodes i node hl).taken hlt)
  have hlive : ∀ i n, live w' i = some n → live w i = some n := by
    intro i n hl
    rw [← (hkept i (Nat.pos_iff_ne_zero.mp (live_eq_some.mp hl).1.1)).live_eq]
    exact hl
  refine h.change 0 0 a.layout.nrInodes h.tree ?_ (fun i hi _ => hkept i hi) ?_ ?_
  · intro i hpos hlt
    rw [a.inodes i hpos]
    exact h.free i hpos hlt
  · intro i hi
    obtain rfl : i = 0 := hi.elim id id
    exact Or.inl ⟨fun hin => absurd hin.1 (lt_irrefl 0),
      h.idle 0 fun hin => absurd hin.1 (lt_irrefl 0)⟩
  · exact h.apart_of fun i n hl => ⟨n, hlive i n hl, rfl⟩

/-- A new inode with an empty block is linked at the end of its directory. -/
theorem Represents.created (h : Represents w t) {w₁ : World} {bno mode : Nat} {d' : Inode}
    (new : NewInode w w₁ ino bno mode) (init : Initial mode bno node) (parent : LiveDir w dir d)
    {es : List DirFile} {f : DirFile} (links : t.links dir = es.map link)
    (fresh : nameOf f ∉ es.map nameOf) (target : f.inode = ino) (sbi : w'.sbi = w₁.sbi)
    (own : w'.icache ino = some node) (up : w'.icache dir = some d')
    (refreshed : Refreshed d d')
    (nlink : d'.iNlink = if sIsdir mode then u32 (d.iNlink + 1 : Nat) else d.iNlink)
    (others : ∀ j, j ≠ ino → j ≠ dir → w'.icache j = w.icache j)
    (packed : Packed (w'.disk d.indexBlock) (es ++ [f])) (empty : Packed (w'.disk bno) [])
    (frame : ∀ b, b ≠ bno → b ≠ d.indexBlock → w'.disk b = w.disk b) :
    Represents w' (t.add dir ino (nameOf f) (sIsdir mode)) := by
  obtain ⟨hfolder, hnlink, _⟩ := h.directory parent
  obtain ⟨hdin, hdc⟩ := live_eq_some.mp parent.live
  have hfree : t.free ino := (h.free ino new.pos new.lt).mpr new.was_free
  have hne : ino ≠ dir := by
    rintro rfl
    have := hdin.2.2
    rw [new.was_free] at this
    cases this
  have hlayout : SameLayout w.sbi w'.sbi := sbi ▸ new.layout
  have hbits : ∀ i, i ≠ ino → w'.sbi.ifreeBitmap i = w.sbi.ifreeBitmap i := by
    intro i hi
    rw [sbi, new.inodes, clearBit_of_ne _ hi]
  have hin : ∀ i, i ≠ ino → (InUse w'.sbi i ↔ InUse w.sbi i) := fun i hi =>
    inUse_congr hlayout (hbits i hi)
  have hown : live w' ino = some node := by
    refine live_eq_some.mpr ⟨⟨new.pos, hlayout.nrInodes ▸ new.lt, ?_⟩, own⟩
    rw [sbi, new.inodes, clearBit_self]
  have hup : live w' dir = some d' := live_eq_some.mpr ⟨(hin dir hne.symm).mpr hdin, up⟩
  -- no live inode has had the new block
  have hbno : ∀ i n, live w i = some n → n.indexBlock ≠ bno := by
    intro i n hl heq
    have := (h.nodes i n hl).taken (heq ▸ new.bno_lt)
    rw [heq, new.bno_free] at this
    cases this
  have htaken : ∀ b, b < w'.sbi.nrBlocks → (b < w.sbi.nrBlocks → w.sbi.bfreeBitmap b = false) →
      w'.sbi.bfreeBitmap b = false := by
    intro b hb hold
    rw [sbi, new.bitmap]
    by_cases hbb : b = bno
    · rw [hbb, clearBit_self]
    · rw [clearBit_of_ne _ hbb]
      exact hold (hlayout.nrBlocks ▸ hb)
  have hsub : ∀ e, (t.add dir ino (nameOf f) (sIsdir mode)).subfolders e =
      t.subfolders e + if e = dir then (sIsdir mode).toNat else 0 := fun e =>
    h.tree.subfolders_add hfree
  refine h.change ino dir hlayout.nrInodes ?_ ?_ ?_ ?_ ?_
  · refine h.tree.add ⟨new.pos, new.lt⟩ hfree hfolder ?_
    rw [names_eq links]
    exact fresh
  · intro i hpos hlt
    change t.free i ∧ i ≠ ino ↔ _
    by_cases hi : i = ino
    · rw [hi, sbi, new.inodes, clearBit_self]
      simp
    · rw [hbits i hi, h.free i hpos hlt]
      exact ⟨fun hf => hf.1, fun hf => ⟨hf, hi⟩⟩
  · intro i hi hid
    refine ⟨hin i hi, fun _ => others i hi hid, Function.update_of_ne hi _ _,
      Function.update_of_ne hid _ _, ?_, ?_, ?_⟩
    · rw [hsub, if_neg hid, Nat.add_zero]
    · intro n hl hlt
      exact htaken _ hlt (h.nodes i n hl).taken
    · intro n hl
      refine frame _ (hbno i n hl) fun heq => ?_
      exact hid (h.apart i dir n d hl parent.live heq)
  · rintro i (rfl | rfl)
    · exact Or.inr ⟨node, hown, nodeOk_new h hfree hne init
        (by rw [sbi, new.bitmap, clearBit_self]) empty⟩
    · refine Or.inr ⟨d', hup, nodeOk_parent parent refreshed ?_ ?_ packed ?_ ?_⟩
      · exact (Function.update_of_ne hne.symm _ _).trans hfolder
      · exact fun hlt => htaken _ hlt (h.nodes i d parent.live).taken
      · change Function.update t.links i _ i = _
        rw [Function.update_self, links, List.map_append, ← target]
        rfl
      · rw [nlink]
        exact nlink_add hnlink (subfolders_le h parent) (by rw [hsub, if_pos rfl])
  · -- the new block is nobody else's
    have hbefore : ∀ i n', i ≠ ino → live w' i = some n' →
        ∃ n, live w i = some n ∧ n.indexBlock = n'.indexBlock := by
      intro i n' hi hl
      exact live_before parent hup refreshed.index (fun _ => hin i hi) (others i hi) hl
    refine h.apart_new hbno hbefore fun n hl => ?_
    obtain rfl : node = n := Option.some.inj (hown.symm.trans hl)
    exact init.index

theorem ouichefsCreate_tree (h : Represents w t) {who : Caller} {io : Io} {mode : Nat}
    (parent : LiveDir w dir d) (ok : NameOk name)
    (absent : lookupLoop (w.disk d.indexBlock) name maxSubfiles 0 = none)
    (reads : io.NoReadFails) :
    ∃ r t', ouichefsCreate w who io dir name mode = some r ∧ Represents r.1 t' := by
  obtain ⟨hfolder, hnlink, es, hes, hlinks⟩ := h.directory parent
  obtain ⟨hdin, hd⟩ := live_eq_some.mp parent.live
  have hlen := ok.lt
  unfold ouichefsCreate
  rw [hd, Option.bind_some, if_neg (by omega), if_neg (by rw [reads 0]; simp)]
  split
  · exact ⟨_, t, rfl, h⟩
  rename_i hroom
  have hlt : es.length < maxSubfiles := by
    have := (hes.inode_eq_zero_iff (show maxSubfiles - 1 < maxSubfiles by decide)).mp
      (not_not.mp hroom)
    unfold maxSubfiles at this ⊢
    omega
  have hspec := ouichefsNewInode_cases w who io d mode
  obtain ⟨q, hq⟩ : ∃ q, q = ouichefsNewInode w who io d mode := ⟨_, rfl⟩
  rw [← hq] at hspec ⊢
  obtain ⟨w₁, res⟩ := q
  rcases hspec with ⟨ret, rfl, _, habandoned⟩ | ⟨ino, bno, rfl, new⟩
  · exact ⟨_, t, rfl, h.abandoned habandoned⟩
  obtain ⟨node, init, hcache⟩ := new.icache
  have hino : w₁.icache ino = some node := by
    rw [hcache]
    exact if_pos rfl
  have hne : dir ≠ ino := by
    rintro rfl
    have := hdin.2.2
    rw [new.was_free] at this
    cases this
  have hdir : w₁.icache dir = some d := by
    rw [hcache]
    exact (if_neg hne).trans hd
  have happart : d.indexBlock ≠ bno := by
    intro heq
    have := (h.nodes dir d parent.live).taken (heq ▸ new.bno_lt)
    rw [heq, new.bno_free] at this
    cases this
  simp only [hino, Option.bind_some, reads 2, Bool.true_eq_false, if_false]
  have hblock : (w₁.setBlock node.indexBlock
      (fill (w₁.disk node.indexBlock) 0 blockSize 0)).disk d.indexBlock = w.disk d.indexBlock := by
    rw [init.index]
    exact (set_of_ne _ _ happart).trans (by rw [new.disk])
  rw [hblock, freeSlotLoop_eq hes maxSubfiles 0 (Nat.zero_add _) (Nat.zero_le _)]
  obtain ⟨f, htarget, rfl, hpacked⟩ := hes.insert hlt ok new.pos
    (Nat.lt_of_lt_of_le new.lt h.range)
  refine ⟨_, _, rfl, h.created new init parent hlinks ?_ htarget rfl ?_ (modify_self _ hdir)
    ⟨rfl, rfl, rfl, rfl⟩ rfl ?_ ?_ ?_ ?_⟩
  · exact (lookup_lookedUp hes ok).missing absent
  · exact (modify_of_ne _ _ hne.symm).trans hino
  · intro j hj hjd
    refine (modify_of_ne _ _ hjd).trans ?_
    change w₁.icache j = _
    rw [hcache]
    exact if_neg hj
  · change Packed (Store.set _ d.indexBlock _ d.indexBlock) _
    rw [set_self]
    exact hpacked
  · change Packed (Store.set (Store.set w₁.disk node.indexBlock _) d.indexBlock _ bno) []
    rw [set_of_ne _ _ happart.symm, init.index, set_self]
    exact packed_nil fun o ho => blit_inside _ _ (Nat.zero_le _) (by simpa [blockSize] using ho)
  · intro b hb hbd
    change Store.set (Store.set w₁.disk _ _) d.indexBlock _ b = _
    rw [set_of_ne _ _ hbd, init.index, set_of_ne _ _ hb, new.disk]

/-! ## Removal -/

/-- Whether or not the number is accepted, no other block is concerned. -/
theorem putBlock_frame (sbi : SbInfo) (bno : Nat) :
    SameLayout sbi (putBlock sbi bno) ∧ (putBlock sbi bno).ifreeBitmap = sbi.ifreeBitmap ∧
      ∀ b, b ≠ bno → (putBlock sbi bno).bfreeBitmap b = sbi.bfreeBitmap b := by
  unfold putBlock putFreeBit
  by_cases hlt : sbi.nrBlocks < bno
  · rw [if_pos hlt]
    exact ⟨SameLayout.refl sbi, rfl, fun _ _ => rfl⟩
  · rw [if_neg hlt]
    exact ⟨⟨rfl, rfl, rfl, rfl, rfl⟩, rfl, fun b hb => setBit_of_ne _ hb⟩

/-- A directory or an empty file has an index block and no other. -/
theorem scrubBlocks_eq {io : Io} (read : io.bread 1 = true)
    (empty : sIsdir node.iMode = false → node.iBlocks = 1) :
    scrubBlocks w io node =
      w.setBlock node.indexBlock (fill (w.disk node.indexBlock) 0 blockSize 0) := by
  unfold scrubBlocks
  simp only [read, Bool.true_eq_false, if_false]
  split
  · rfl
  · rename_i hdir
    rw [empty (by simpa using hdir)]
    rfl

/-- The inode `ino`, which links nothing, has gone from its directory. -/
theorem Represents.removed (h : Represents w t) {d' : Inode} {es : List DirFile} {k : Nat}
    {old : List Byte} (parent : LiveDir w dir d) (own : live w ino = some node)
    (links : t.links dir = es.map link) (at_ : (t.links dir)[k]? = some (ino, old))
    (empty : t.links ino = []) (layout : SameLayout w.sbi w'.sbi)
    (inodes : w'.sbi.ifreeBitmap = setBit w.sbi.ifreeBitmap ino)
    (blocks : ∀ b, b ≠ node.indexBlock → w'.sbi.bfreeBitmap b = w.sbi.bfreeBitmap b)
    (up : w'.icache dir = some d') (refreshed : Refreshed d d')
    (nlink : d'.iNlink = if sIsdir node.iMode then u32 ((d.iNlink : Int) - 1) else d.iNlink)
    (others : ∀ j, j ≠ ino → j ≠ dir → w'.icache j = w.icache j)
    (packed : Packed (w'.disk d.indexBlock) (es.eraseIdx k))
    (frame : ∀ b, b ≠ node.indexBlock → b ≠ d.indexBlock → w'.disk b = w.disk b) :
    Represents w' (t.remove dir ino k) := by
  obtain ⟨hfolder, hnlink, _⟩ := h.directory parent
  obtain ⟨hdin, _⟩ := live_eq_some.mp parent.live
  have hne : ino ≠ dir := by
    rintro rfl
    rw [empty] at at_
    cases at_
  have hbits : ∀ i, i ≠ ino → w'.sbi.ifreeBitmap i = w.sbi.ifreeBitmap i := by
    intro i hi
    rw [inodes, setBit_of_ne _ hi]
  have hin : ∀ i, i ≠ ino → (InUse w'.sbi i ↔ InUse w.sbi i) := fun i hi =>
    inUse_congr layout (hbits i hi)
  have hout : ¬ InUse w'.sbi ino := by
    rintro ⟨_, _, hbit⟩
    rw [inodes, setBit_self] at hbit
    cases hbit
  have hup : live w' dir = some d' := live_eq_some.mpr ⟨(hin dir hne.symm).mpr hdin, up⟩
  have htaken : ∀ i n, i ≠ ino → live w i = some n → n.indexBlock < w'.sbi.nrBlocks →
      w'.sbi.bfreeBitmap n.indexBlock = false := by
    intro i n hi hl hlt
    rw [blocks _ fun heq => hi (h.apart i ino n node hl own heq)]
    exact (h.nodes i n hl).taken (layout.nrBlocks ▸ hlt)
  have hsub : ∀ e, t.subfolders e = (t.remove dir ino k).subfolders e +
      if e = dir then (t.folder ino).toNat else 0 := fun e => h.tree.subfolders_remove at_
  refine h.change ino dir layout.nrInodes (h.tree.remove at_ empty) ?_ ?_ ?_ ?_
  · intro i hpos hlt
    change t.free i ∨ i = ino ↔ _
    by_cases hi : i = ino
    · rw [hi, inodes, setBit_self]
      simp
    · rw [hbits i hi, ← h.free i hpos hlt]
      exact ⟨fun hf => hf.resolve_right hi, Or.inl⟩
  · intro i hi hid
    refine ⟨hin i hi, fun _ => others i hi hid, Function.update_of_ne hi _ _,
      Function.update_of_ne hid _ _, ?_, fun n hl => htaken i n hi hl, ?_⟩
    · have := hsub i
      rw [if_neg hid] at this
      exact this.symm
    · intro n hl
      exact frame _ (fun heq => hi (h.apart i ino n node hl own heq))
        (fun heq => hid (h.apart i dir n d hl parent.live heq))
  · rintro i (rfl | rfl)
    · exact Or.inl ⟨hout, Function.update_self _ _ _⟩
    · refine Or.inr ⟨d', hup, nodeOk_parent parent refreshed ?_ ?_ packed ?_ ?_⟩
      · exact (Function.update_of_ne hne.symm _ _).trans hfolder
      · exact htaken i d hne.symm parent.live
      · change Function.update t.links i _ i = _
        rw [Function.update_self, links, List.eraseIdx_map]
      · rw [nlink]
        refine nlink_remove hnlink (subfolders_le h parent) ?_
        rw [hsub i, if_pos rfl, (h.nodes ino node own).folder]
  · refine h.apart_of fun i n' hl => ?_
    have hi : i ≠ ino := by
      rintro rfl
      exact hout (live_eq_some.mp hl).1
    exact live_before parent hup refreshed.index (fun _ => hin i hi) (others i hi) hl

/-- The entry that a lookup finds is found again by its number. -/
theorem findSub_of_lookup {es : List DirFile} {dblock : Buffer} (hes : Packed dblock es)
    (ok : NameOk name) (found : lookupLoop dblock name maxSubfiles 0 = some ino) :
    ∃ fId f, findSubLoop dblock ino maxSubfiles 0 none = (some fId, es.length) ∧
      es[fId]? = some f ∧ f.inode = ino := by
  obtain ⟨j, g, hg, _, hino⟩ := (lookup_lookedUp hes ok).found ino found
  have hmem : g ∈ es := List.mem_of_getElem? hg
  have hfind := findSub_found hes (hino ▸ hes.used g hmem)
  obtain ⟨q, hq⟩ : ∃ q, q = findSubLoop dblock ino maxSubfiles 0 none := ⟨_, rfl⟩
  rw [← hq] at hfind ⊢
  obtain ⟨slot, count⟩ := q
  cases slot with
  | none => exact absurd hino (hfind.missing rfl g hmem)
  | some fId =>
    obtain ⟨f, hf, hfino⟩ := hfind.slot fId rfl
    exact ⟨fId, f, by rw [show count = es.length from hfind.count], hf, hfino⟩

theorem ouichefsUnlink_tree (h : Represents w t) {io : Io} (parent : LiveDir w dir d)
    (ok : NameOk name) (found : lookupLoop (w.disk d.indexBlock) name maxSubfiles 0 = some ino)
    (own : live w ino = some node) (empty : t.links ino = []) (reads : io.NoReadFails) :
    ∃ r t', ouichefsUnlink w io dir ino = some r ∧ Represents r.1 t' := by
  obtain ⟨_, _, es, hes, hlinks⟩ := h.directory parent
  obtain ⟨hdin, hd⟩ := live_eq_some.mp parent.live
  obtain ⟨hin, hc⟩ := live_eq_some.mp own
  obtain ⟨fId, f, hfind, hf, hfino⟩ := findSub_of_lookup hes ok found
  have hat : (t.links dir)[fId]? = some (ino, nameOf f) := hfino ▸ links_at hlinks hf
  have hne : ino ≠ dir := by
    rintro rfl
    rw [empty] at hat
    cases hat
  have happart : node.indexBlock ≠ d.indexBlock := fun heq =>
    hne (h.apart ino dir node d own parent.live heq)
  unfold ouichefsUnlink
  simp only [hd, hc, Option.bind_some, reads 0, Bool.true_eq_false, if_false, hfind]
  rw [scrubBlocks_eq (reads 1) (h.nodes ino node own).file]
  obtain ⟨hlayout, hinodes, hblocks⟩ := putBlock_frame w.sbi node.indexBlock
  obtain ⟨hput, hset⟩ := @putInode_spec (putBlock w.sbi node.indexBlock) ino (by
    rw [hlayout.nrInodes]
    exact Nat.le_of_lt hin.2.1)
  refine ⟨_, _, rfl, h.removed parent own hlinks hat empty (hlayout.trans hput.layout) ?_ ?_
    ((modify_of_ne _ _ hne.symm).trans (modify_self _ hd)) ⟨rfl, rfl, rfl, rfl⟩ rfl ?_ ?_ ?_⟩
  · exact hset.trans (by rw [hinodes])
  · intro b hb
    exact (congrFun hput.bitmap b).trans (hblocks b hb)
  · intro j hj hjd
    exact (modify_of_ne _ _ hj).trans (modify_of_ne _ _ hjd)
  · change Packed (Store.set (Store.set w.disk _ _) node.indexBlock _ d.indexBlock) _
    rw [set_of_ne _ _ happart.symm, set_self]
    exact hes.remove (List.getElem?_eq_some_iff.mp hf).1
  · intro b hb hbd
    change Store.set (Store.set w.disk _ _) node.indexBlock _ b = _
    rw [set_of_ne _ _ hb, set_of_ne _ _ hbd]

theorem ouichefsRmdir_tree (h : Represents w t) {io : Io} (parent : LiveDir w dir d)
    (ok : NameOk name) (found : lookupLoop (w.disk d.indexBlock) name maxSubfiles 0 = some ino)
    (own : LiveDir w ino node) (reads : io.NoReadFails) :
    ∃ r t', ouichefsRmdir w io dir ino = some r ∧ Represents r.1 t' := by
  obtain ⟨_, _, es, hes, hlinks⟩ := h.directory own
  unfold ouichefsRmdir
  rw [(live_eq_some.mp own.live).2, Option.bind_some]
  split
  · exact ⟨_, t, rfl, h⟩
  rw [if_neg (by rw [reads 0]; simp)]
  split
  · exact ⟨_, t, rfl, h⟩
  rename_i hfirst
  have hnil : es = [] := by
    have := (hes.inode_eq_zero_iff (show 0 < maxSubfiles by decide)).mp (not_not.mp hfirst)
    exact List.length_eq_zero_iff.mp (by omega)
  refine ouichefsUnlink_tree h parent ok found own.live ?_ (fun n => reads (n + 1))
  rw [hlinks, hnil]
  rfl

end

end DirTree
