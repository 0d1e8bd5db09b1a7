import OuicheFs.TreeRun
import OuicheFs.Isolation
import OuicheFs.Listing

/-!
# Directories and data together

The tree of directories and the ownership of blocks hold side by side, with
files of any size. For the tree a file is hollow: operations on directories do
not look at its data blocks. Each operation is described once by what it leaves
in the directories it works on; the invariant follows from that.
-/
namespace WholeVolume

open CInt Bits ByteBuffer IndexEntry Allocator FileContext Layout OuicheInode OuicheDir OuicheSuper
  Mkfs FileRun Ledger Ownership Lifecycle VolumeRun Directory Hierarchy DirTree Isolation

def hollowNode (node : Inode) : Inode :=
  if sIsdir node.iMode then node else { node with iBlocks := 1 }

/-- The volume as the operations on directories see it. -/
def hollow (w : World) : World := { w with icache := fun i => (w.icache i).map hollowNode }

theorem hollowNode_of_dir {node : Inode} (h : sIsdir node.iMode = true) : hollowNode node = node :=
  if_pos h

@[simp] theorem hollowNode_iMode (node : Inode) : (hollowNode node).iMode = node.iMode := by
  unfold hollowNode
  split <;> rfl

@[simp] theorem hollowNode_indexBlock (node : Inode) :
    (hollowNode node).indexBlock = node.indexBlock := by
  unfold hollowNode
  split <;> rfl

theorem hollowNode_file {node : Inode} (h : sIsdir node.iMode = false) :
    (hollowNode node).iBlocks = 1 := by
  unfold hollowNode
  rw [if_neg (by rw [h]; simp)]

section

variable {w w' : World} {i dir ino : Nat} {d node : Inode}

theorem live_hollow (w : World) (i : Nat) : live (hollow w) i = (live w i).map hollowNode := by
  unfold live
  change (if InUse w.sbi i then (w.icache i).map hollowNode else none) = _
  split <;> rfl

theorem live_of_hollow (h : live (hollow w) i = some node) :
    ∃ n, live w i = some n ∧ hollowNode n = node := by
  rw [live_hollow] at h
  exact Option.map_eq_some_iff.mp h

theorem hollow_live (h : live w i = some node) : live (hollow w) i = some (hollowNode node) := by
  rw [live_hollow, h]
  rfl

theorem hollow_icache (h : w.icache i = some node) :
    (hollow w).icache i = some (hollowNode node) := by
  change (w.icache i).map hollowNode = _
  rw [h]
  rfl

theorem hollow_icache_congr (h : w'.icache i = w.icache i) :
    (hollow w').icache i = (hollow w).icache i := by
  change (w'.icache i).map hollowNode = (w.icache i).map hollowNode
  rw [h]

theorem hollow_dir (h : LiveDir w dir d) : LiveDir (hollow w) dir d := by
  refine ⟨?_, h.type⟩
  rw [hollow_live h.live, hollowNode_of_dir h.type]

end

/-- The blocks are settled, the directories are the tree `t`, and all names in it
can be looked up. -/
structure VolumeInv (w : World) (t : Tree Nat (List Byte)) : Prop where
  world : WorldInv w
  tree : Represents (hollow w) t
  names : ∀ dir, ∀ n ∈ t.names dir, NameOk n

/-- The place of an inode in the tree. -/
structure Placed (w : World) (t : Tree Nat (List Byte)) (i : Nat) (node : Inode) : Prop where
  folder : t.folder i = sIsdir node.iMode
  block : sIsdir node.iMode = true →
    ∃ es, Packed (w.disk node.indexBlock) es ∧ t.links i = es.map link
  nlink : sIsdir node.iMode = true → node.iNlink = 2 + t.subfolders i

/-- Nothing changes for `i` as a member of the tree. -/
structure Settled (w w' : World) (t t' : Tree Nat (List Byte)) (i : Nat) : Prop where
  inUse : InUse w'.sbi i ↔ InUse w.sbi i
  icache : InUse w.sbi i → w'.icache i = w.icache i
  folder : t'.folder i = t.folder i
  links : t'.links i = t.links i
  subfolders : t'.subfolders i = t.subfolders i
  disk : ∀ node, live w i = some node → w'.disk node.indexBlock = w.disk node.indexBlock

section

variable {w w' : World} {t t' : Tree Nat (List Byte)} {dir ino i j : Nat} {d node : Inode}

theorem VolumeInv.directory (h : VolumeInv w t) (own : LiveDir w dir d) :
    t.folder dir = true ∧ d.iNlink = 2 + t.subfolders dir ∧
      ∃ es, Packed (w.disk d.indexBlock) es ∧ t.links dir = es.map link :=
  h.tree.directory (hollow_dir own)

theorem VolumeInv.free (h : VolumeInv w t) (pos : 0 < i) (lt : i < w.sbi.nrInodes) :
    t.free i ↔ w.sbi.ifreeBitmap i = true :=
  h.tree.free i pos lt

theorem VolumeInv.target (h : VolumeInv w t) (mem : ino ∈ t.targets dir) :
    ∃ node, live w ino = some node ∧ t.folder ino = sIsdir node.iMode := by
  obtain ⟨n, hl, hfolder⟩ := h.tree.target mem
  obtain ⟨node, hnode, rfl⟩ := live_of_hollow hl
  rw [hollowNode_iMode] at hfolder
  exact ⟨node, hnode, hfolder⟩

theorem VolumeInv.folder (h : VolumeInv w t) (own : live w i = some node) :
    t.folder i = sIsdir node.iMode := by
  have := (h.tree.nodes i _ (hollow_live own)).folder
  rwa [hollowNode_iMode] at this

theorem WorldInv.apart (h : WorldInv w) {n n' : Inode} (hi : live w i = some n)
    (hj : live w j = some n') (heq : n.indexBlock = n'.indexBlock) : i = j :=
  h.ledger.disjoint i j _ (index_mem_holds hi) (heq ▸ index_mem_holds hj)

theorem nodeOk_hollow (h : WorldInv w) (own : live w i = some node) (p : Placed w t i node) :
    NodeOk (hollow w) t i (hollowNode node) := by
  refine ⟨?_, ?_, ?_, ?_, ?_⟩
  · rw [hollowNode_iMode]
    exact p.folder
  · rw [hollowNode_iMode]
    exact hollowNode_file
  · intro _
    rw [hollowNode_indexBlock]
    exact (h.used (index_mem_holds own)).1.taken
  · rw [hollowNode_iMode, hollowNode_indexBlock]
    exact p.block
  · rw [hollowNode_iMode]
    intro hdir
    rw [hollowNode_of_dir hdir]
    exact p.nlink hdir

/-- A change that concerns the numbers `a` and `b` keeps the invariant, if the
blocks stay settled and these two have their places. -/
theorem VolumeInv.change (h : VolumeInv w t) (h' : WorldInv w') (a b : Nat)
    (nrInodes : w'.sbi.nrInodes = w.sbi.nrInodes)
    (tree : Consistent (fun i => 0 < i ∧ i < w.sbi.nrInodes) 1 t')
    (free : ∀ i, 0 < i → i < w.sbi.nrInodes → (t'.free i ↔ w'.sbi.ifreeBitmap i = true))
    (others : ∀ i, i ≠ a → i ≠ b → Settled w w' t t' i)
    (own : ∀ i, i = a ∨ i = b → (¬ InUse w'.sbi i ∧ t'.folder i = false) ∨
      ∃ node, live w' i = some node ∧ Placed w' t' i node)
    (names : ∀ dir, ∀ n ∈ t'.names dir, NameOk n) : VolumeInv w' t' := by
  refine ⟨h', h.tree.change a b nrInodes tree free ?_ ?_ ?_, names⟩
  · intro i ha hb
    have hs := others i ha hb
    have hlive : ∀ n, live w i = some n → live w' i = some n := by
      intro n hl
      obtain ⟨hin, hc⟩ := live_eq_some.mp hl
      exact live_eq_some.mpr ⟨hs.inUse.mpr hin, (hs.icache hin).trans hc⟩
    refine ⟨hs.inUse, fun hin => ?_, hs.folder, hs.links, hs.subfolders, ?_, ?_⟩
    · change (w'.icache i).map hollowNode = (w.icache i).map hollowNode
      rw [hs.icache hin]
    · intro n hn _
      obtain ⟨m, hm, rfl⟩ := live_of_hollow hn
      rw [hollowNode_indexBlock]
      exact (h'.used (index_mem_holds (hlive m hm))).1.taken
    · intro n hn
      obtain ⟨m, hm, rfl⟩ := live_of_hollow hn
      rw [hollowNode_indexBlock]
      exact hs.disk m hm
  · intro i hi
    rcases own i hi with hout | ⟨node, hl, hplaced⟩
    · exact Or.inl hout
    · exact Or.inr ⟨_, hollow_live hl, nodeOk_hollow h' hl hplaced⟩
  · intro i j n n' hi hj heq
    obtain ⟨m, hm, rfl⟩ := live_of_hollow hi
    obtain ⟨m', hm', rfl⟩ := live_of_hollow hj
    rw [hollowNode_indexBlock, hollowNode_indexBlock] at heq
    exact WorldInv.apart h' hm hm' heq

/-- An inode whose number is neither free nor touched. -/
theorem VolumeInv.placed (h : VolumeInv w t) (own : live w i = some node) : Placed w t i node := by
  have hok := h.tree.nodes i _ (hollow_live own)
  refine ⟨h.folder own, fun hdir => ?_, fun hdir => ?_⟩
  · have := hok.block
    rw [hollowNode_iMode, hollowNode_indexBlock] at this
    exact this hdir
  · have := hok.nlink
    rw [hollowNode_iMode, hollowNode_of_dir hdir] at this
    exact this hdir

end

section

variable {w : World} {t : Tree Nat (List Byte)} {a : Nat} {node : Inode} {es es' : List Word} {s : Ctx}

/-- A call on a file leaves the directories alone. -/
theorem VolumeInv.effect (h : VolumeInv w t) (own : live w a = some node)
    (reg : sIsreg node.iMode = true) (hholds : holds w a = node.indexBlock :: numbers es)
    (e : Effect (w.ctx node calmIo) es s es') : VolumeInv (w.withCtx a s) t := by
  have hisolated := isolated_of_effect h.world own reg hholds e
  have hbits : ∀ i, (w.withCtx a s).sbi.ifreeBitmap i = w.sbi.ifreeBitmap i := fun i => by
    change s.sbi.ifreeBitmap i = _
    rw [e.inodes]
    rfl
  have hin : InUse s.sbi a := (inUse_congr e.layout (by rw [e.inodes])).mpr (live_eq_some.mp own).1
  have hmode : s.node.iMode = node.iMode := e.mode
  have hfile : ¬ sIsdir s.node.iMode = true := by
    intro hdir
    rw [hmode] at hdir
    rw [sIsreg_of_sIsdir hdir] at reg
    cases reg
  refine h.change (h.world.effect own reg hholds e) a a e.layout.nrInodes h.tree.tree ?_ ?_ ?_
    h.names
  · intro i hpos hlt
    rw [hbits]
    exact h.tree.free i hpos hlt
  · intro i hi _
    exact ⟨inUse_congr e.layout (hbits i), fun _ => hisolated.inode i hi, rfl, rfl, rfl,
      fun n hl => hisolated.index i n hi hl⟩
  · intro i hi
    obtain rfl : i = a := hi.elim id id
    refine Or.inr ⟨s.node, (holds_withCtx hin e.inv.shape (by rw [hmode]; exact reg)).1, ?_,
      fun hdir => absurd hdir hfile, fun hdir => absurd hdir hfile⟩
    rw [hmode]
    exact h.folder own

end

/-- A new inode has been entered into the directory `dir` with the entries `es`. -/
structure Grown (w : World) (dir : Nat) (d : Inode) (name : List Byte) (mode : Nat)
    (es : List DirFile) (ino bno : Nat) (f : DirFile) (w' : World) : Prop where
  created : Created w dir d ino bno mode w'
  target : f.inode = ino
  named : nameOf f = name
  fresh : name ∉ es.map nameOf
  packed : Packed (w'.disk d.indexBlock) (es ++ [f])
  empty : Packed (w'.disk bno) []
  up : ∃ d', w'.icache dir = some d' ∧ Refreshed d d' ∧
    d'.iNlink = if sIsdir mode then u32 (d.iNlink + 1 : Nat) else d.iNlink

/-- The last slot of the directory is unused when an inode is created. -/
theorem ouichefsCreate_room {w : World} {who : Caller} {io : Io} {dir mode : Nat} {d : Inode}
    {name : List Byte} {r : World × Int} (hd : w.icache dir = some d)
    (run : ouichefsCreate w who io dir name mode = some r) (done : r.2 = 0) :
    fileInode (w.disk d.indexBlock) (maxSubfiles - 1) = 0 := by
  unfold ouichefsCreate at run
  rw [hd, Option.bind_some] at run
  by_contra hfull
  split at run
  · cases run
    cases done
  split at run
  · cases run
    cases done
  -- the remaining branch is the one without room
  cases run
  cases done

/-- Words that are zero are bytes that are zero. -/
theorem packed_of_words {b : Buffer} (zero : ∀ i, i < 1024 → le32 b (4 * i) = 0) : Packed b [] := by
  apply packed_nil
  intro o ho
  have hword := extract_le32 b (4 * (o / 4)) (show o % 4 < 4 by omega)
  rw [zero (o / 4) (by omega), show 4 * (o / 4) + o % 4 = o by omega] at hword
  rw [← hword]
  exact BitVec.extractLsb'_zero

theorem initial_hollow {mode bno : Nat} {node : Inode} (init : Initial mode bno node) :
    Initial mode bno (hollowNode node) := by
  by_cases hdir : sIsdir node.iMode = true
  · rw [hollowNode_of_dir hdir]
    exact init
  · have hfile : sIsdir mode = false := by
      rw [← init.dir]
      simpa using hdir
    unfold hollowNode
    rw [if_neg hdir]
    exact ⟨init.index, rfl, init.dir, init.reg, init.empty, fun h => by rw [hfile] at h; cases h⟩

section

variable {w w' : World} {t : Tree Nat (List Byte)} {dir ino bno mode : Nat} {d : Inode}
  {name : List Byte} {es : List DirFile} {f : DirFile}

theorem VolumeInv.create_cases (h : VolumeInv w t) {who : Caller} {io : Io} {r : World × Int}
    (parent : LiveDir w dir d) (ok : NameOk name) (hes : Packed (w.disk d.indexBlock) es)
    (absent : lookupLoop (w.disk d.indexBlock) name maxSubfiles 0 = none)
    (reads : io.NoReadFails) (run : ouichefsCreate w who io dir name mode = some r) :
    (r.2 < 0 ∧ Abandoned w r.1) ∨
      (r.2 = 0 ∧ ∃ ino bno f, Grown w dir d name mode es ino bno f r.1) := by
  have hd := (live_eq_some.mp parent.live).2
  have htaken := (h.world.used (index_mem_holds parent.live)).1.taken
  rcases ouichefsCreate_cases parent htaken run with ⟨hneg, _, habandoned⟩ | ⟨hzero, ino, bno, c, hblock⟩
  · exact Or.inl ⟨hneg, habandoned (reads 2)⟩
  have hroom : es.length < maxSubfiles := by
    have hlast := ouichefsCreate_room hd run hzero
    have := (hes.inode_eq_zero_iff (show maxSubfiles - 1 < maxSubfiles by decide)).mp hlast
    unfold maxSubfiles at this ⊢
    omega
  obtain ⟨w₁, new, _⟩ := c.new
  obtain ⟨f, htarget, hname, hpacked⟩ := hes.insert hroom ok new.pos
    (Nat.lt_of_lt_of_le new.lt h.tree.range)
  rw [enter, freeSlotLoop_eq hes maxSubfiles 0 (Nat.zero_add _) (Nat.zero_le _)] at hblock
  refine Or.inr ⟨hzero, ino, bno, f, c, htarget, hname, (lookup_lookedUp hes ok).missing absent,
    hblock ▸ hpacked, packed_of_words c.scrubbed, ?_⟩
  -- the link count is not part of `Created`
  obtain ⟨d', hup, hfresh⟩ := c.up
  refine ⟨d', hup, hfresh, ?_⟩
  obtain ⟨e, he, hexits⟩ := ouichefsCreate_exits run
  obtain rfl : d = e := Option.some.inj (hd.symm.trans he)
  rcases hexits with ⟨_, hneg⟩ | ⟨ret, hnew, hret⟩ | ⟨w₂, ino₂, node₂, hnew, _, ⟨_, hr⟩ | ⟨_, hr⟩⟩
  · omega
  · rcases ouichefsNewInode_cases w who io d mode with ⟨ret', hret', hneg, _⟩ | ⟨_, _, hok, _⟩
    · rw [hnew] at hret'
      cases hret'
      omega
    · rw [hnew] at hok
      cases hok
  · rw [hr] at hzero
    cases hzero
  · have hcache : w₂.icache dir = some d := by
      rcases ouichefsNewInode_cases w who io d mode with ⟨_, herr, _⟩ | ⟨ino₃, _, hok, new₃⟩
      · rw [hnew] at herr
        cases herr
      · rw [hnew] at hok new₃
        obtain ⟨_, _, hcache⟩ := new₃.icache
        rw [hcache]
        refine (if_neg ?_).trans hd
        rintro rfl
        have := (live_eq_some.mp parent.live).1.2.2
        rw [new₃.was_free] at this
        cases this
    rw [hr] at hup
    have hself := hup.symm.trans (modify_self _ (show World.icache _ dir = some d from hcache))
    rw [Option.some.inj hself]

theorem VolumeInv.grown (h : VolumeInv w t) (parent : LiveDir w dir d)
    (links : t.links dir = es.map link) (ok : NameOk name)
    (g : Grown w dir d name mode es ino bno f w') :
    VolumeInv w' (t.add dir ino name (sIsdir mode)) := by
  obtain ⟨w₁, new, sbi⟩ := g.created.new
  obtain ⟨node, init, own⟩ := g.created.own
  obtain ⟨d', hup, hfresh, hnlink⟩ := g.up
  have hdir' : hollowNode d' = d' := hollowNode_of_dir (by rw [hfresh.mode]; exact parent.type)
  have hnew : NewInode (hollow w) (hollow w₁) ino bno mode := by
    obtain ⟨n, hn, hcache⟩ := new.icache
    refine ⟨new.type, new.pos, new.lt, new.was_free, new.inodes, new.layout, new.blocks, new.bno_lt,
      new.bno_free, new.bitmap, new.disk, hollowNode n, initial_hollow hn, ?_⟩
    funext i
    change (w₁.icache i).map hollowNode = if i = ino then some (hollowNode n) else
      (w.icache i).map hollowNode
    rw [hcache]
    by_cases hi : i = ino
    · simp [hi]
    · simp [hi]
  have htree : Represents (hollow w') (t.add dir ino (nameOf f) (sIsdir mode)) :=
    h.tree.created hnew (initial_hollow init) (hollow_dir parent) links
      (by rw [g.named]; exact g.fresh) g.target sbi (hollow_icache own)
      (by rw [hollow_icache hup, hdir']) hfresh hnlink
      (fun j hj hjd => hollow_icache_congr (g.created.others j hj hjd)) g.packed g.empty
      g.created.frame
  rw [g.named] at htree
  refine ⟨created_inv h.world g.created parent, htree, ?_⟩
  intro e n hn
  rcases names_add hn with hold | rfl
  · exact h.names e n hold
  · exact ok

end

section

variable {w w' : World} {t : Tree Nat (List Byte)} {dir ino k : Nat} {d node : Inode}
  {name : List Byte} {es : List DirFile}

/-- A lookup in the block of a directory follows its links. -/
theorem lookup_find (links : t.links dir = es.map link) (hes : Packed (w.disk d.indexBlock) es)
    (ok : NameOk name) : lookupLoop (w.disk d.indexBlock) name maxSubfiles 0 = t.find dir name := by
  rw [lookup_eq hes (Nat.le_of_lt ok.lt) ok.nonzero]
  unfold Tree.find follow
  rw [links, List.find?_map, Option.map_map]
  rfl

theorem VolumeInv.lookup_eq (h : VolumeInv w t) (parent : LiveDir w dir d) (ok : NameOk name) :
    lookupLoop (w.disk d.indexBlock) name maxSubfiles 0 = t.find dir name := by
  obtain ⟨_, _, es, hes, hlinks⟩ := h.directory parent
  exact lookup_find hlinks hes ok

theorem VolumeInv.found (h : VolumeInv w t) (found : t.find dir name = some ino) :
    (ino, name) ∈ t.links dir :=
  (follow_eq_some (h.tree.tree.names dir)).mp found

/-- An inode has one name. -/
theorem VolumeInv.name_eq (h : VolumeInv w t) (found : t.find dir name = some ino)
    {old : List Byte} (at_ : (t.links dir)[k]? = some (ino, old)) : old = name :=
  congrArg Prod.snd (List.inj_on_of_nodup_map (h.tree.tree.ledger.nodup dir)
    (List.mem_of_getElem? at_) (h.found found) rfl)

/-- Directories have been refreshed and their blocks rewritten; all else is as it was. -/
structure Relinked (w w' : World) : Prop where
  sbi : w'.sbi = w.sbi
  icache : ∀ j, w'.icache j = w.icache j ∨ ∃ n n', LiveDir w j n ∧ w'.icache j = some n' ∧
    Refreshed n n'
  disk : ∀ b, w'.disk b = w.disk b ∨ ∃ j n, LiveDir w j n ∧ b = n.indexBlock

/-- The index block of a file is not the block of a directory. -/
theorem Relinked.index (r : Relinked w w') (h : WorldInv w) {j : Nat} {n : Inode}
    (hc : w.icache j = some n) (reg : sIsreg n.iMode = true) :
    w'.disk n.indexBlock = w.disk n.indexBlock := by
  rcases r.disk n.indexBlock with hsame | ⟨i, m, hm, hb⟩
  · exact hsame
  exfalso
  by_cases hij : j = i
  · subst hij
    obtain rfl : m = n := Option.some.inj ((live_eq_some.mp hm.live).2.symm.trans hc)
    rw [sIsreg_of_sIsdir hm.type] at reg
    cases reg
  · exact (h.index_apart hij hc).1 (hb ▸ index_mem_holds hm.live)

theorem Relinked.untouched (r : Relinked w w') (h : WorldInv w) (j : Nat) : Untouched w w' j := by
  refine ⟨by rw [r.sbi], fun hc => ?_, fun n hc => ?_⟩
  · rcases r.icache j with heq | ⟨n, n', own, _⟩
    · exact heq.trans hc
    · rw [(live_eq_some.mp own.live).2] at hc
      cases hc
  · rcases r.icache j with heq | ⟨n₀, n', own, hn', hfresh⟩
    · exact ⟨n, heq.trans hc, rfl, rfl, rfl, rfl, r.index h hc⟩
    · obtain rfl : n₀ = n := Option.some.inj ((live_eq_some.mp own.live).2.symm.trans hc)
      refine ⟨n', hn', hfresh.mode, hfresh.index, hfresh.iBlocks, hfresh.iSize, fun reg => ?_⟩
      rw [sIsreg_of_sIsdir own.type] at reg
      cases reg

theorem Relinked.inv (r : Relinked w w') (h : WorldInv w) : WorldInv w' := by
  have hno : ∀ {v : World}, ¬ InUse v.sbi 0 := fun h => absurd h.1 (lt_irrefl 0)
  have hnone : ∀ v : World, live v 0 = none := fun v => if_neg hno
  refine h.change 0 (r.sbi ▸ SameLayout.refl _) (r.sbi ▸ h.blocks) (fun j _ => r.untouched h j)
    (fun h => absurd h hno) ?_ ?_ ?_ ?_ ?_
  · intro node hl
    rw [hnone] at hl
    cases hl
  · intro node _ hc
    rcases r.icache 0 with heq | ⟨n, _, own, _⟩
    · exact h.orphans 0 node hno (heq ▸ hc)
    · exact absurd (live_eq_some.mp own.live).1 hno
  · rw [holds_none (hnone w')]
    exact List.nodup_nil
  · rw [holds_none (hnone w')]
    intro b hb
    cases hb
  · intro b
    rw [holds_none (hnone w'), holds_none (hnone w), r.sbi]
    simp

theorem relinked_accessed (own : LiveDir w dir d) (now : Timespec) :
    Relinked w (w.modify dir fun d => { d with iAtime := now }) := by
  refine ⟨rfl, fun j => ?_, fun _ => Or.inl rfl⟩
  by_cases hj : j = dir
  · subst hj
    exact Or.inr ⟨d, _, own, modify_self _ (live_eq_some.mp own.live).2, rfl, rfl, rfl, rfl⟩
  · exact Or.inl (modify_of_ne _ _ hj)

/-- A directory has been read. -/
theorem VolumeInv.accessed (h : VolumeInv w t) (own : LiveDir w dir d) (now : Timespec) :
    VolumeInv (w.modify dir fun d => { d with iAtime := now }) t := by
  refine ⟨(relinked_accessed own now).inv h.world, ?_, h.names⟩
  have hc := (live_eq_some.mp own.live).2
  have htree := h.tree.accessed (hollow_dir own) now
  have hsame : (hollow w).modify dir (fun d => { d with iAtime := now }) =
      hollow (w.modify dir fun d => { d with iAtime := now }) := by
    unfold World.modify hollow
    congr 1
    funext i
    by_cases hi : i = dir
    · subst hi
      simp only [hc, Option.map_some, hollowNode_of_dir own.type, if_true]
      rw [hollowNode_of_dir]
      exact own.type
    · simp only [if_neg hi]
  rwa [hsame] at htree

/-- A live inode is already in the cache. -/
theorem iget_live {who : Caller} {ok : Bool} (own : live w ino = some node)
    (run : ouichefsIget w who ok ino = .ok w') : w' = w := by
  unfold ouichefsIget at run
  simp only [(live_eq_some.mp own).2] at run
  split at run
  · cases run
  split at run
  · cases run
  · exact (Except.ok.inj run).symm

/-- A lookup leaves the time in the inode of the directory, and finds what the tree has. -/
theorem VolumeInv.lookup_run (h : VolumeInv w t) {who : Caller} {io : Io} (own : LiveDir w dir d)
    (ok : NameOk name) (reads : io.NoReadFails) {r : World × Except Int (Option Nat)}
    (run : ouichefsLookup w who io dir name = some r) :
    r = (w.modify dir (fun d => { d with iAtime := io.now }), .ok (t.find dir name)) := by
  have hlen := ok.lt
  have hlookup := h.lookup_eq own ok
  unfold ouichefsLookup at run
  rw [(live_eq_some.mp own.live).2, Option.bind_some, if_neg (by omega),
    if_neg (by rw [reads 0]; simp), hlookup] at run
  cases hfind : t.find dir name with
  | none =>
    rw [hfind] at run
    cases run
    rfl
  | some ino =>
    obtain ⟨node, hl, _⟩ := h.target (List.mem_map_of_mem (f := Prod.fst) (h.found hfind))
    rw [hfind] at run
    cases hget : ouichefsIget w who (io.bread 1) ino with
    | error e =>
      simp only [hget] at run
      cases run
    | ok w₁ =>
      simp only [hget] at run
      obtain rfl : w₁ = w := iget_live hl hget
      cases run
      rfl

theorem VolumeInv.lookup (h : VolumeInv w t) {who : Caller} {io : Io} (own : LiveDir w dir d)
    (ok : NameOk name) (reads : io.NoReadFails) {r : World × Except Int (Option Nat)}
    (run : ouichefsLookup w who io dir name = some r) :
    VolumeInv r.1 t ∧ Relinked w r.1 ∧ r.2 = .ok (t.find dir name) := by
  rw [h.lookup_run own ok reads run]
  exact ⟨h.accessed own io.now, relinked_accessed own io.now, rfl⟩

end

/-- The inode `ino` has gone, and with it the entry `k` of its directory. -/
structure Pruned (w : World) (dir : Nat) (d : Inode) (ino : Nat) (node : Inode)
    (es : List DirFile) (k : Nat) (w' : World) : Prop where
  removed : ∃ freed, freed.Perm (holds w ino) ∧ Removed w dir d ino freed w'
  packed : Packed (w'.disk d.indexBlock) (es.eraseIdx k)
  up : ∃ d', w'.icache dir = some d' ∧ Refreshed d d' ∧
    d'.iNlink = if sIsdir node.iMode then u32 ((d.iNlink : Int) - 1) else d.iNlink

section

variable {w w' : World} {t : Tree Nat (List Byte)} {dir ino k : Nat} {d node : Inode}
  {name : List Byte} {es : List DirFile} {data : List Nat}

/-- The blocks of the inode are where they were. -/
theorem removable_frame (h : Removable w ino node data) (own : live w ino = some node)
    (own' : live w' ino = some node) (sbi : w'.sbi = w.sbi)
    (index : w'.disk node.indexBlock = w.disk node.indexBlock) : Removable w' ino node data := by
  have hsame : SameFile w w' node node := ⟨rfl, rfl, rfl, rfl, fun _ => index⟩
  refine ⟨?_, by rw [sbi]; exact h.range, ?_⟩
  · rw [holds_live own', hsame.nodeBlocks_eq, ← holds_live own]
    exact h.holds
  · rcases h.index with hdir | ⟨hdir, es, hshape, hrest⟩
    · exact Or.inl hdir
    · refine Or.inr ⟨hdir, es, hshape.congr (fun i _ => ?_) rfl rfl, hrest⟩
      exact @blocks_congr (w.ctx node calmIo) (w'.ctx node calmIo) rfl index i

/-- The directory after the removal of an inode that does not hold its block. -/
theorem ouichefsUnlink_parent {io : Io} {r : World × Int} (parent : LiveDir w dir d)
    (own : live w ino = some node) (ne : ino ≠ dir) (apart : d.indexBlock ∉ holds w ino)
    (h : Removable w ino node data) (hes : Packed (w.disk d.indexBlock) es)
    (read : io.bread 0 = true) (run : ouichefsUnlink w io dir ino = some r) :
    r.2 = 0 ∧ ∃ k f d', es[k]? = some f ∧ f.inode = ino ∧
      Packed (r.1.disk d.indexBlock) (es.eraseIdx k) ∧ r.1.icache dir = some d' ∧
      d'.iNlink = if sIsdir node.iMode then u32 ((d.iNlink : Int) - 1) else d.iNlink := by
  have hd := (live_eq_some.mp parent.live).2
  obtain ⟨hin, hc⟩ := live_eq_some.mp own
  rw [h.holds, List.mem_cons, not_or] at apart
  obtain ⟨hindex, hdata⟩ := apart
  unfold ouichefsUnlink at run
  simp only [hd, hc, Option.bind_some, read, Bool.true_eq_false, if_false] at run
  have hfound := findSub_found hes (Nat.ne_of_gt hin.1)
  split at run
  · cases run
  rename_i fId nrSubs hfind
  rw [hfind] at hfound
  obtain ⟨f, hf, hino⟩ := hfound.slot fId rfl
  have hcount : nrSubs = es.length := hfound.count
  obtain ⟨w₁, hw₁⟩ : ∃ w₁, w₁ = w.setBlock d.indexBlock
      (removeSub (w.disk d.indexBlock) fId nrSubs) := ⟨_, rfl⟩
  rw [← hw₁] at run
  obtain ⟨w₂, hw₂⟩ : ∃ w₂, w₂ = w₁.modify dir (fun d => { d with
    iMtime := io.now, iAtime := io.now, iCtime := io.now
    iNlink := if sIsdir node.iMode then u32 ((d.iNlink : Int) - 1) else d.iNlink }) := ⟨_, rfl⟩
  rw [← hw₂] at run
  have hup : w₂.icache dir = some { d with
      iMtime := io.now, iAtime := io.now, iCtime := io.now
      iNlink := if sIsdir node.iMode then u32 ((d.iNlink : Int) - 1) else d.iNlink } := by
    rw [hw₂, hw₁]
    exact modify_self _ hd
  have hsbi : w₂.sbi = w.sbi := by
    rw [hw₂, hw₁]
    rfl
  have hdisk : w₂.disk = w.disk.set d.indexBlock (removeSub (w.disk d.indexBlock) fId nrSubs) := by
    rw [hw₂, hw₁]
    rfl
  have hown : live w₂ ino = some node := by
    refine live_eq_some.mpr ⟨hsbi ▸ hin, ?_⟩
    rw [hw₂, hw₁]
    exact (modify_of_ne _ _ ne).trans hc
  obtain ⟨freed, _, _, hframe, hcache⟩ := scrubBlocks_spec (removable_frame h own hown hsbi (by
    rw [hdisk]
    exact set_of_ne _ _ (Ne.symm hindex))) io
  cases run
  refine ⟨rfl, fId, f, _, hf, hino, ?_, (modify_of_ne _ _ ne.symm).trans
    ((congrFun hcache dir).trans hup), rfl⟩
  · change Packed ((scrubBlocks w₂ io node).disk d.indexBlock) _
    rw [hframe _ hindex hdata, hdisk, set_self, hcount]
    exact hes.remove (List.getElem?_eq_some_iff.mp hf).1

/-- A removal without failing reads. -/
theorem VolumeInv.pruned_of_run (h : VolumeInv w t) {io : Io} {r : World × Int}
    (parent : LiveDir w dir d) (own : live w ino = some node) (ne : ino ≠ dir)
    (hes : Packed (w.disk d.indexBlock) es) (reads : io.NoReadFails)
    (run : ouichefsUnlink w io dir ino = some r) :
    r.2 = 0 ∧ ∃ k f, es[k]? = some f ∧ f.inode = ino ∧ Pruned w dir d ino node es k r.1 := by
  obtain ⟨data, hrem⟩ := WorldInv.removable h.world own
  have happart : d.indexBlock ∉ holds w ino := fun hmem =>
    ne (h.world.ledger.disjoint ino dir _ hmem (index_mem_holds parent.live))
  have hindex : node.indexBlock ≠ d.indexBlock := by
    rintro heq
    exact happart (heq ▸ index_mem_holds own)
  obtain ⟨hret, k, f, d', hf, hino, hpacked, hup, hnlink⟩ :=
    ouichefsUnlink_parent parent own ne happart hrem hes (reads 0) run
  rcases ouichefsUnlink_cases parent own ne hindex hrem run with ⟨_, hfail⟩ | ⟨freed, hfreed, hr⟩
  · rw [reads 0] at hfail
    cases hfail
  obtain rfl : freed = data := by
    rcases hfreed with heq | ⟨hfail, _⟩
    · exact heq
    · rw [reads 1] at hfail
      cases hfail
  have hall : (freed ++ [node.indexBlock]).Perm (holds w ino) := by
    rw [hrem.holds]
    exact List.perm_append_singleton _ _
  obtain ⟨d'', hup', hfresh⟩ := hr.up
  obtain rfl : d'' = d' := Option.some.inj (hup'.symm.trans hup)
  exact ⟨hret, k, f, hf, hino, ⟨_, hall, hr⟩, hpacked, d'', hup, hfresh, hnlink⟩

theorem VolumeInv.pruned (h : VolumeInv w t) (parent : LiveDir w dir d)
    (own : live w ino = some node) (links : t.links dir = es.map link) {old : List Byte}
    (at_ : (t.links dir)[k]? = some (ino, old)) (empty : t.links ino = [])
    (p : Pruned w dir d ino node es k w') : VolumeInv w' (t.remove dir ino k) := by
  obtain ⟨freed, hall, hr⟩ := p.removed
  obtain ⟨d', hup, hfresh, hnlink⟩ := p.up
  obtain ⟨hfolder, hlinks, _⟩ := h.directory parent
  have hne : ino ≠ dir := by
    rintro rfl
    rw [empty] at at_
    cases at_
  have hbits : w'.sbi.ifreeBitmap = setBit w.sbi.ifreeBitmap ino := by
    obtain ⟨sbi, hrel, _, hset⟩ := hr.released
    rw [hset, hrel.inodes.1]
  have hsub : ∀ e, t.subfolders e = (t.remove dir ino k).subfolders e +
      if e = dir then (t.folder ino).toNat else 0 := fun e => h.tree.tree.subfolders_remove at_
  refine h.change (removed_inv h.world parent hall hr) ino dir hr.layout.nrInodes
    (h.tree.tree.remove at_ empty) ?_ ?_ ?_ (fun e n hn => h.names e n (names_remove hn))
  · intro i hpos hlt
    change t.free i ∨ i = ino ↔ _
    by_cases hi : i = ino
    · rw [hi, hbits, setBit_self]
      simp
    · rw [hbits, setBit_of_ne _ hi, ← h.free hpos hlt]
      exact ⟨fun hf => hf.resolve_right hi, Or.inl⟩
  · intro i hi hid
    refine ⟨hr.inUse_iff hi, fun _ => hr.others i hi hid, Function.update_of_ne hi _ _,
      Function.update_of_ne hid _ _, ?_, ?_⟩
    · have := hsub i
      rw [if_neg hid] at this
      exact this.symm
    · intro n hl
      exact hr.frame _ (fun hmem => hi (h.world.ledger.disjoint i ino _ (index_mem_holds hl) hmem))
        (fun heq => hid (WorldInv.apart h.world hl parent.live heq))
  · rintro i (rfl | rfl)
    · exact Or.inl ⟨hr.not_inUse, Function.update_self _ _ _⟩
    · have hin := (live_eq_some.mp parent.live).1
      refine Or.inr ⟨d', live_eq_some.mpr ⟨(hr.inUse_iff hne.symm).mpr hin, hup⟩, ?_, ?_, ?_⟩
      · rw [hfresh.mode, parent.type]
        exact (Function.update_of_ne hne.symm _ _).trans hfolder
      · refine fun _ => ⟨es.eraseIdx k, ?_, ?_⟩
        · rw [hfresh.index]
          exact p.packed
        · change Function.update t.links i _ i = _
          rw [Function.update_self, links, List.eraseIdx_map]
      · intro _
        rw [hnlink]
        refine nlink_remove hlinks (subfolders_le h.tree (hollow_dir parent)) ?_
        rw [hsub i, if_pos rfl, h.folder own]

/-- A directory is removed when it is empty, and only then. -/
theorem VolumeInv.rmdir_cases (h : VolumeInv w t) {io : Io} {r : World × Int}
    (own : LiveDir w ino node) (reads : io.NoReadFails)
    (run : ouichefsRmdir w io dir ino = some r) :
    (r.2 < 0 ∧ r.1 = w ∧ t.links ino ≠ []) ∨
      (t.links ino = [] ∧
        ouichefsUnlink w { io with bread := fun n => io.bread (n + 1) } dir ino = some r) := by
  obtain ⟨_, hnlink, es, hes, hlinks⟩ := h.directory own
  have hempty : -errNotempty < 0 := by decide
  unfold ouichefsRmdir at run
  rw [(live_eq_some.mp own.live).2, Option.bind_some] at run
  by_cases hgt : node.iNlink > 2
  · rw [if_pos hgt] at run
    cases run
    refine Or.inl ⟨hempty, rfl, fun hnil => ?_⟩
    have : t.subfolders ino = 0 := by
      unfold Tree.subfolders Tree.targets
      rw [hnil]
      rfl
    omega
  rw [if_neg hgt, if_neg (by rw [reads 0]; simp)] at run
  have hfirst := hes.inode_eq_zero_iff (show 0 < maxSubfiles by decide)
  by_cases hused : fileInode (w.disk node.indexBlock) 0 = 0
  · rw [if_neg (not_not.mpr hused)] at run
    refine Or.inr ⟨?_, run⟩
    have hnil : es = [] := List.length_eq_zero_iff.mp (Nat.le_zero.mp (hfirst.mp hused))
    rw [hlinks, hnil]
    rfl
  · rw [if_pos hused] at run
    cases run
    refine Or.inl ⟨hempty, rfl, fun hnil => hused (hfirst.mpr ?_)⟩
    rw [hlinks, List.map_eq_nil_iff] at hnil
    rw [hnil]
    exact Nat.le_refl 0

end

section

variable {w w' : World} {t : Tree Nat (List Byte)} {dir ino k : Nat} {d node : Inode}
  {name : List Byte} {es : List DirFile}

/-- The hollow volume of a changed one. -/
theorem VolumeInv.of_hollow (world : WorldInv w') {t' : Tree Nat (List Byte)}
    (tree : Represents (hollow w') t') (h : VolumeInv w t) {name : List Byte} (ok : NameOk name)
    (names : ∀ e, ∀ n ∈ t'.names e, n ∈ t.names e ∨ n = name) : VolumeInv w' t' := by
  refine ⟨world, tree, ?_⟩
  intro e n hn
  rcases names e n hn with hold | rfl
  · exact h.names e n hold
  · exact ok

theorem VolumeInv.renamed (h : VolumeInv w t) {f g : DirFile} (parent : LiveDir w dir d)
    (links : t.links dir = es.map link) (at_ : es[k]? = some g) (target : f.inode = g.inode)
    (ok : NameOk (nameOf f)) (fresh : nameOf f ∉ es.map nameOf) (sbi : w'.sbi = w.sbi)
    (icache : w'.icache = w.icache) (packed : Packed (w'.disk d.indexBlock) (es.set k f))
    (frame : ∀ b, b ≠ d.indexBlock → w'.disk b = w.disk b) :
    Relinked w w' ∧ VolumeInv w' (t.rename dir g.inode k (nameOf f)) := by
  have hrel : Relinked w w' := by
    refine ⟨sbi, fun j => Or.inl (congrFun icache j), fun b => ?_⟩
    by_cases hb : b = d.indexBlock
    · exact Or.inr ⟨dir, d, parent, hb⟩
    · exact Or.inl (frame b hb)
  have htree : Represents (hollow w') (t.rename dir g.inode k (nameOf f)) :=
    h.tree.renamed (hollow_dir parent) links at_ target fresh sbi
      (by funext i; exact hollow_icache_congr (congrFun icache i)) packed frame
  exact ⟨hrel, .of_hollow (hrel.inv h.world) htree h ok fun e n hn => names_rename hn⟩

theorem VolumeInv.moved (h : VolumeInv w t) {oldDir newDir : Nat}
    {ciOld ciOld' ciNew ciNew' : Inode} {es' : List DirFile} {f : DirFile} {oldName : List Byte}
    (old : LiveDir w oldDir ciOld) (new : LiveDir w newDir ciNew) (ne : newDir ≠ oldDir)
    (links : t.links oldDir = es.map link) (links' : t.links newDir = es'.map link)
    (at_ : (t.links oldDir)[k]? = some (ino, oldName)) (own : live w ino = some node)
    (target : f.inode = ino) (ok : NameOk (nameOf f)) (fresh : nameOf f ∉ es'.map nameOf)
    (sbi : w'.sbi = w.sbi) (up : w'.icache newDir = some ciNew') (refreshed : Refreshed ciNew ciNew')
    (nlink : ciNew'.iNlink = if sIsdir node.iMode then u32 (ciNew.iNlink + 1 : Nat) else ciNew.iNlink)
    (up' : w'.icache oldDir = some ciOld') (refreshed' : Refreshed ciOld ciOld')
    (nlink' : ciOld'.iNlink =
      if sIsdir node.iMode then u32 ((ciOld.iNlink : Int) - 1) else ciOld.iNlink)
    (others : ∀ j, j ≠ newDir → j ≠ oldDir → w'.icache j = w.icache j)
    (packed : Packed (w'.disk ciNew.indexBlock) (es' ++ [f]))
    (packed' : Packed (w'.disk ciOld.indexBlock) (es.eraseIdx k))
    (frame : ∀ b, b ≠ ciNew.indexBlock → b ≠ ciOld.indexBlock → w'.disk b = w.disk b) :
    Relinked w w' ∧ VolumeInv w' (t.move oldDir ino k newDir (nameOf f)) := by
  have hrel : Relinked w w' := by
    refine ⟨sbi, fun j => ?_, fun b => ?_⟩
    · by_cases hnew : j = newDir
      · exact Or.inr ⟨ciNew, ciNew', hnew ▸ new, hnew ▸ up, refreshed⟩
      by_cases hold : j = oldDir
      · exact Or.inr ⟨ciOld, ciOld', hold ▸ old, hold ▸ up', refreshed'⟩
      · exact Or.inl (others j hnew hold)
    · by_cases hnew : b = ciNew.indexBlock
      · exact Or.inr ⟨newDir, ciNew, new, hnew⟩
      by_cases hold : b = ciOld.indexBlock
      · exact Or.inr ⟨oldDir, ciOld, old, hold⟩
      · exact Or.inl (frame b hnew hold)
  have hdir : ∀ {n n' : Inode}, sIsdir n.iMode = true → Refreshed n n' → hollowNode n' = n' :=
    fun htype hfresh => hollowNode_of_dir (by rw [hfresh.mode]; exact htype)
  have htree : Represents (hollow w') (t.move oldDir ino k newDir (nameOf f)) :=
    h.tree.moved (hollow_dir old) (hollow_dir new) ne links links' at_ (hollow_live own) target fresh
      sbi (by rw [hollow_icache up, hdir new.type refreshed]) refreshed
      (by rw [hollowNode_iMode]; exact nlink) (by rw [hollow_icache up', hdir old.type refreshed'])
      refreshed' (by rw [hollowNode_iMode]; exact nlink')
      (fun j hj hj' => hollow_icache_congr (others j hj hj')) packed packed' frame
  exact ⟨hrel, .of_hollow (hrel.inv h.world) htree h ok fun e n hn => names_move hn⟩

/-- A renaming without failing reads changes nothing or moves the link. -/
theorem VolumeInv.rename_cases (h : VolumeInv w t) {io : Io} {oldDir newDir src flags : Nat}
    {ciOld ciNew : Inode} {oldName newName : List Byte} {r : World × Int}
    (old : LiveDir w oldDir ciOld) (new : LiveDir w newDir ciNew) (okOld : NameOk oldName)
    (okNew : NameOk newName) (found : t.find oldDir oldName = some src)
    (room : oldDir ≠ newDir → nrEntries (w.disk ciOld.indexBlock) < maxSubfiles)
    (reads : io.NoReadFails)
    (run : ouichefsRename w io oldDir oldName newDir newName src flags = some r) :
    (r.2 < 0 ∧ r.1 = w) ∨
      (r.2 = 0 ∧ newName ∉ t.names newDir ∧ Relinked w r.1 ∧
        ∃ k, (t.links oldDir)[k]? = some (src, oldName) ∧
        ((oldDir = newDir ∧ VolumeInv r.1 (t.rename oldDir src k newName)) ∨
          (oldDir ≠ newDir ∧ VolumeInv r.1 (t.move oldDir src k newDir newName)))) := by
  obtain ⟨_, _, es, hes, hlinks⟩ := h.directory old
  obtain ⟨_, _, es', hes', hlinks'⟩ := h.directory new
  have hcOld := (live_eq_some.mp old.live).2
  have hcNew := (live_eq_some.mp new.live).2
  obtain ⟨inode, hsrc, _⟩ := h.target (List.mem_map_of_mem (f := Prod.fst) (h.found found))
  have hlookup := (h.lookup_eq old okOld).trans found
  have hlen := okNew.lt
  unfold ouichefsRename at run
  rw [hcOld, Option.bind_some, hcNew, Option.bind_some, (live_eq_some.mp hsrc).2,
    Option.bind_some] at run
  by_cases hflags : flags &&& (renameExchange ||| renameWhiteout) ≠ 0
  · rw [if_pos hflags] at run
    cases run
    exact Or.inl ⟨(by decide : -errInval < 0), rfl⟩
  rw [if_neg hflags, if_neg (by omega), if_neg (by rw [reads 0]; simp)] at run
  simp only at run
  cases hscan : renameScan (w.disk ciNew.indexBlock) (newDir = oldDir) oldName newName
      maxSubfiles 0 none none with
  | none =>
    rw [hscan] at run
    cases run
    exact Or.inl ⟨(by decide : -errExist < 0), rfl⟩
  | some q =>
    obtain ⟨fPos, newPos⟩ := q
    have hscanned := rename_scanned hes' okOld (Nat.le_of_lt okNew.lt) okNew.nonzero hscan
    have hfresh : newName ∉ t.names newDir := by
      rw [names_eq hlinks']
      exact hscanned.fresh
    rw [hscan] at run
    simp only at run
    by_cases hsame : oldDir = newDir
    · subst hsame
      obtain rfl : ciNew = ciOld := Option.some.inj (hcNew.symm.trans hcOld)
      rw [if_pos rfl] at run
      cases fPos with
      | none => cases run
      | some j =>
        obtain ⟨g, hg, hname⟩ := hscanned.fPos j rfl
        obtain ⟨hj, rfl⟩ := List.getElem?_eq_some_iff.mp hg
        obtain ⟨e, he, rfl, hpacked⟩ := hes'.rename hj okNew
        have hat := links_at hlinks' hg
        rw [hname] at hat
        have hino : (es'[j]).inode = src := by
          have := (follow_eq_some (h.tree.tree.names oldDir)).mpr (List.mem_of_getElem? hat)
          exact Option.some.inj (this.symm.trans found)
        cases run
        have hset : ∀ block, Packed block (es'.set j e) →
            Relinked w (w.setBlock ciNew.indexBlock block) ∧
              VolumeInv (w.setBlock ciNew.indexBlock block)
                (t.rename oldDir (es'[j]).inode j (nameOf e)) := by
          intro block hblock
          refine h.renamed new hlinks' hg he okNew hscanned.fresh rfl rfl ?_
            fun b hb => set_of_ne _ _ hb
          change Packed (Store.set _ _ _ ciNew.indexBlock) _
          rw [set_self]
          exact hblock
        obtain ⟨hrel, hinv⟩ := hset _ hpacked
        exact Or.inr ⟨rfl, hfresh, hrel, j, hino ▸ hat, Or.inl ⟨rfl, hino ▸ hinv⟩⟩
    · rw [if_neg hsame] at run
      have hnewPos := hscanned.newPos
      by_cases hlt : es'.length < maxSubfiles
      · rw [if_pos hlt] at hnewPos
        obtain rfl : newPos = some es'.length := hnewPos
        obtain ⟨fId, f, hfind, hf, hfino⟩ := findSub_of_lookup hes okOld hlookup
        have hat : (t.links oldDir)[fId]? = some (src, nameOf f) := hfino ▸ links_at hlinks hf
        rw [h.name_eq found hat] at hat
        have happart : ciOld.indexBlock ≠ ciNew.indexBlock := fun heq =>
          hsame (WorldInv.apart h.world old.live new.live heq)
        have hroom := room hsame
        rw [nrEntries_eq hes] at hroom
        obtain ⟨⟨hpos, hrange⟩, _⟩ := h.tree.tree.ledger.held oldDir src (mem_targets hat)
        obtain ⟨e, he, rfl, hpacked⟩ := hes'.insert hlt okNew hpos
          (Nat.lt_of_lt_of_le hrange h.tree.range)
        simp only [reads 1, Bool.true_eq_false, if_false] at run
        have hblock : ∀ b m g, ((w.setBlock ciNew.indexBlock b).modify m g).disk ciOld.indexBlock =
            w.disk ciOld.indexBlock := fun b m g => set_of_ne _ _ happart
        simp only [hblock, hfind, if_neg (Nat.ne_of_lt hroom)] at run
        have hmoved : Relinked w r.1 ∧ VolumeInv r.1 (t.move oldDir src fId newDir (nameOf e)) := by
          cases run
          refine h.moved old new (Ne.symm hsame) hlinks hlinks' hat hsrc he okNew hscanned.fresh rfl
            ((modify_of_ne _ _ (Ne.symm hsame)).trans (modify_self _ hcNew)) ⟨rfl, rfl, rfl, rfl⟩
            rfl (modify_self _ ((modify_of_ne _ _ hsame).trans hcOld)) ⟨rfl, rfl, rfl, rfl⟩ rfl
            ?_ ?_ ?_ ?_
          · intro j hj hj'
            exact (modify_of_ne _ _ hj').trans (modify_of_ne _ _ hj)
          · change Packed (Store.set (Store.set w.disk _ _) ciOld.indexBlock _ ciNew.indexBlock) _
            rw [set_of_ne _ _ happart.symm, set_self]
            exact hpacked
          · change Packed (Store.set (Store.set w.disk _ _) ciOld.indexBlock _ ciOld.indexBlock) _
            rw [set_self]
            exact hes.remove (List.getElem?_eq_some_iff.mp hf).1
          · intro b hb hb'
            change Store.set (Store.set w.disk _ _) ciOld.indexBlock _ b = _
            rw [set_of_ne _ _ hb', set_of_ne _ _ hb]
        cases run
        exact Or.inr ⟨rfl, hfresh, hmoved.1, fId, hat, Or.inr ⟨hsame, hmoved.2⟩⟩
      · rw [if_neg hlt] at hnewPos
        obtain rfl : newPos = none := hnewPos
        cases run
        exact Or.inl ⟨(by decide : -errMlink < 0), rfl⟩

end

/-- A volume whose files are empty is hollow. -/
theorem represents_hollow {w : World} {t : Tree Nat (List Byte)} (h : Represents w t) :
    Represents (hollow w) t := by
  have hsame : ∀ i n, live w i = some n → hollowNode n = n := by
    intro i n hl
    by_cases hdir : sIsdir n.iMode = true
    · exact hollowNode_of_dir hdir
    · have hfile := (h.nodes i n hl).file (by simpa using hdir)
      unfold hollowNode
      rw [if_neg hdir, ← hfile]
  refine h.change 0 0 rfl h.tree h.free ?_ ?_ ?_
  · intro i _ _
    refine ⟨Iff.rfl, fun hin => ?_, rfl, rfl, rfl, fun n hl => (h.nodes i n hl).taken,
      fun _ _ => rfl⟩
    obtain ⟨n, hn⟩ := h.cached i hin
    rw [hollow_icache hn, hn, hsame i n (live_eq_some.mpr ⟨hin, hn⟩)]
  · intro i hi
    obtain rfl : i = 0 := hi.elim id id
    have hout : ¬ InUse w.sbi 0 := fun h => absurd h.1 (lt_irrefl 0)
    exact Or.inl ⟨hout, h.idle 0 hout⟩
  · refine h.apart_of fun i n hl => ?_
    obtain ⟨m, hm, rfl⟩ := live_of_hollow hl
    exact ⟨m, hm, (hollowNode_indexBlock m).symm⟩

theorem formatted_volume {ok : Nat → Bool} {stSize : Nat} {disk image : Store} {who : Caller}
    {readable : Nat → Bool} {memory : Fin 4 → Bool} {w : World}
    (formatted : mkfs ok stSize disk = some image)
    (mount : ouichefsFillSuper image who readable memory = .ok w)
    (small : stSize / 4096 ≤ 524288) : VolumeInv w (rootOnly w.sbi.nrInodes) := by
  refine ⟨formatted_inv formatted mount small,
    represents_hollow (formatted_represents formatted mount), ?_⟩
  intro e n hn
  cases hn

end WholeVolume
