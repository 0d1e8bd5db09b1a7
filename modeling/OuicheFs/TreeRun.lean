import OuicheFs.DirTree

/-!
# Runs over the tree of directories

Renaming and looking up, then any sequence of the operations on inodes from the
formatted volume on. What a volume shows of its tree is packed blocks, distinct
names, one entry for each inode and the right link counts.
-/
namespace DirTree

open CInt Bits ByteBuffer Allocator FileContext OuicheInode OuicheDir OuicheSuper Mkfs Ownership
  Lifecycle VolumeRun Directory Hierarchy

section

variable {w w' : World} {t t' : Tree Nat (List Byte)} {dir ino : Nat} {d node : Inode}
  {name : List Byte}

/-- An entry of `dir` has another name. -/
theorem Represents.renamed (h : Represents w t) {es : List DirFile} {k : Nat} {f g : DirFile}
    (parent : LiveDir w dir d) (links : t.links dir = es.map link) (at_ : es[k]? = some g)
    (target : f.inode = g.inode) (fresh : nameOf f ∉ es.map nameOf) (sbi : w'.sbi = w.sbi)
    (icache : w'.icache = w.icache) (packed : Packed (w'.disk d.indexBlock) (es.set k f))
    (frame : ∀ b, b ≠ d.indexBlock → w'.disk b = w.disk b) :
    Represents w' (t.rename dir g.inode k (nameOf f)) := by
  obtain ⟨hfolder, hnlink, _⟩ := h.directory parent
  have hplace := links_at links at_
  have hsub : ∀ e, (t.rename dir g.inode k (nameOf f)).subfolders e = t.subfolders e := by
    intro e
    unfold Tree.subfolders
    rw [rename_targets hplace]
    rfl
  have hlive : ∀ i, live w' i = live w i := by
    intro i
    unfold live
    rw [sbi, icache]
  refine h.change dir dir (by rw [sbi]) ?_ ?_ ?_ ?_ ?_
  · refine h.tree.rename hplace ?_
    rw [names_eq links]
    exact fresh
  · rw [sbi]
    exact h.free
  · intro i hi _
    refine ⟨by rw [sbi], fun _ => by rw [icache], rfl, Function.update_of_ne hi _ _, hsub i, ?_, ?_⟩
    · rw [sbi]
      exact fun n hl => (h.nodes i n hl).taken
    · exact fun n hl => frame _ fun heq => hi (h.apart i dir n d hl parent.live heq)
  · intro i hi
    obtain rfl : i = dir := hi.elim id id
    refine Or.inr ⟨d, (hlive i).trans parent.live,
      nodeOk_parent parent ⟨rfl, rfl, rfl, rfl⟩ hfolder ?_ packed ?_ ?_⟩
    · rw [sbi]
      exact (h.nodes i d parent.live).taken
    · change Function.update t.links i _ i = _
      rw [Function.update_self, links, List.map_set, ← target]
      rfl
    · rw [hsub i]
      exact hnlink
  · exact h.apart_of fun i n hl => ⟨n, (hlive i).symm.trans hl, rfl⟩

/-- An entry of the old directory has gone to the end of the new one. -/
theorem Represents.moved (h : Represents w t) {oldDir newDir : Nat} {ciOld ciOld' ciNew ciNew' : Inode}
    {es es' : List DirFile} {k : Nat} {f : DirFile} {oldName : List Byte}
    (old : LiveDir w oldDir ciOld) (new : LiveDir w newDir ciNew) (ne : newDir ≠ oldDir)
    (links : t.links oldDir = es.map link) (links' : t.links newDir = es'.map link)
    (at_ : (t.links oldDir)[k]? = some (ino, oldName)) (own : live w ino = some node)
    (target : f.inode = ino) (fresh : nameOf f ∉ es'.map nameOf) (sbi : w'.sbi = w.sbi)
    (up : w'.icache newDir = some ciNew') (refreshed : Refreshed ciNew ciNew')
    (nlink : ciNew'.iNlink = if sIsdir node.iMode then u32 (ciNew.iNlink + 1 : Nat) else ciNew.iNlink)
    (up' : w'.icache oldDir = some ciOld') (refreshed' : Refreshed ciOld ciOld')
    (nlink' : ciOld'.iNlink =
      if sIsdir node.iMode then u32 ((ciOld.iNlink : Int) - 1) else ciOld.iNlink)
    (others : ∀ j, j ≠ newDir → j ≠ oldDir → w'.icache j = w.icache j)
    (packed : Packed (w'.disk ciNew.indexBlock) (es' ++ [f]))
    (packed' : Packed (w'.disk ciOld.indexBlock) (es.eraseIdx k))
    (frame : ∀ b, b ≠ ciNew.indexBlock → b ≠ ciOld.indexBlock → w'.disk b = w.disk b) :
    Represents w' (t.move oldDir ino k newDir (nameOf f)) := by
  obtain ⟨hfolder, hnlink, _⟩ := h.directory new
  obtain ⟨hfolder', hnlink', _⟩ := h.directory old
  have htype := (h.nodes ino node own).folder
  have hsub : ∀ e, t.subfolders e + (if e = newDir then (t.folder ino).toNat else 0) =
      (t.move oldDir ino k newDir (nameOf f)).subfolders e +
        if e = oldDir then (t.folder ino).toNat else 0 := fun e => subfolders_move at_ ne
  have hup : live w' newDir = some ciNew' :=
    live_eq_some.mpr ⟨sbi ▸ (live_eq_some.mp new.live).1, up⟩
  have hup' : live w' oldDir = some ciOld' :=
    live_eq_some.mpr ⟨sbi ▸ (live_eq_some.mp old.live).1, up'⟩
  refine h.change newDir oldDir (by rw [sbi]) ?_ ?_ ?_ ?_ ?_
  · refine h.tree.move at_ hfolder ne ?_
    rw [names_eq links']
    exact fresh
  · rw [sbi]
    exact h.free
  · intro i hi hi'
    refine ⟨by rw [sbi], fun _ => others i hi hi', rfl, ?_, ?_, ?_, ?_⟩
    · exact (Function.update_of_ne hi _ _).trans (Function.update_of_ne hi' _ _)
    · have := hsub i
      rw [if_neg hi, if_neg hi'] at this
      exact this.symm
    · rw [sbi]
      exact fun n hl => (h.nodes i n hl).taken
    · intro n hl
      exact frame _ (fun heq => hi (h.apart i newDir n ciNew hl new.live heq))
        (fun heq => hi' (h.apart i oldDir n ciOld hl old.live heq))
  · rintro i (rfl | rfl)
    · refine Or.inr ⟨ciNew', hup, nodeOk_parent new refreshed hfolder ?_ packed ?_ ?_⟩
      · rw [sbi]
        exact (h.nodes i ciNew new.live).taken
      · change Function.update (Function.update t.links oldDir _) i _ i = _
        rw [Function.update_self, links', List.map_append, ← target]
        rfl
      · rw [nlink]
        refine nlink_add hnlink (subfolders_le h new) ?_
        have := hsub i
        rw [if_pos rfl, if_neg ne, htype] at this
        exact this.symm
    · refine Or.inr ⟨ciOld', hup', nodeOk_parent old refreshed' hfolder' ?_ packed' ?_ ?_⟩
      · rw [sbi]
        exact (h.nodes i ciOld old.live).taken
      · change Function.update (Function.update t.links i _) newDir _ i = _
        rw [Function.update_of_ne ne.symm, Function.update_self, links, List.eraseIdx_map]
      · rw [nlink']
        refine nlink_remove hnlink' (subfolders_le h old) ?_
        have := hsub i
        rw [if_neg ne.symm, if_pos rfl, htype] at this
        exact this
  · refine h.apart_of fun i n' hl => ?_
    by_cases hi : i = newDir
    · subst hi
      obtain rfl : ciNew' = n' := Option.some.inj (hup.symm.trans hl)
      exact ⟨ciNew, new.live, refreshed.index.symm⟩
    · exact live_before old hup' refreshed'.index (fun _ => by rw [sbi]) (others i hi) hl

/-- The number of entries of a directory block. -/
def nrEntries (dblock : Buffer) : Nat :=
  (List.range maxSubfiles).countP fun i => fileInode dblock i ≠ 0

theorem nrEntries_eq {es : List DirFile} {dblock : Buffer} (hes : Packed dblock es) :
    nrEntries dblock = es.length := by
  have hcount := hes.countP_slots (p := fun i => decide (i ≠ 0)) (by simp)
  unfold nrEntries
  rw [hcount, List.countP_eq_length.mpr, List.length_map]
  intro i hi
  obtain ⟨e, he, rfl⟩ := List.mem_map.mp hi
  exact decide_eq_true (hes.used e he)

theorem ouichefsRename_tree (h : Represents w t) {io : Io} {oldDir newDir src flags : Nat}
    {ciOld ciNew : Inode} {oldName newName : List Byte} (old : LiveDir w oldDir ciOld)
    (new : LiveDir w newDir ciNew) (okOld : NameOk oldName) (okNew : NameOk newName)
    (found : lookupLoop (w.disk ciOld.indexBlock) oldName maxSubfiles 0 = some src)
    (room : oldDir ≠ newDir → nrEntries (w.disk ciOld.indexBlock) < maxSubfiles)
    (reads : io.NoReadFails) :
    ∃ r t', ouichefsRename w io oldDir oldName newDir newName src flags = some r ∧
      Represents r.1 t' := by
  obtain ⟨_, _, es, hes, hlinks⟩ := h.directory old
  obtain ⟨_, _, es', hes', hlinks'⟩ := h.directory new
  have hcOld := (live_eq_some.mp old.live).2
  have hcNew := (live_eq_some.mp new.live).2
  obtain ⟨fId, f, hfind, hf, hfino⟩ := findSub_of_lookup hes okOld found
  have hat : (t.links oldDir)[fId]? = some (src, nameOf f) := hfino ▸ links_at hlinks hf
  obtain ⟨inode, hsrc, _⟩ := h.target (mem_targets hat)
  have hlen := okNew.lt
  unfold ouichefsRename
  rw [hcOld, Option.bind_some, hcNew, Option.bind_some, (live_eq_some.mp hsrc).2, Option.bind_some]
  by_cases hflags : flags &&& (renameExchange ||| renameWhiteout) ≠ 0
  · rw [if_pos hflags]
    exact ⟨_, t, rfl, h⟩
  rw [if_neg hflags, if_neg (by omega), if_neg (by rw [reads 0]; simp)]
  simp only
  cases hscan : renameScan (w.disk ciNew.indexBlock) (newDir = oldDir) oldName newName
      maxSubfiles 0 none none with
  | none => exact ⟨_, t, rfl, h⟩
  | some q =>
    obtain ⟨fPos, newPos⟩ := q
    have hscanned := rename_scanned hes' okOld (Nat.le_of_lt okNew.lt) okNew.nonzero hscan
    by_cases hsame : oldDir = newDir
    · subst hsame
      obtain rfl : ciNew = ciOld := Option.some.inj (hcNew.symm.trans hcOld)
      simp only [if_true]
      cases fPos with
      | none =>
        obtain ⟨j, g, hg, hname, _⟩ := (lookup_lookedUp hes' okOld).found src found
        exact absurd (List.mem_map.mpr ⟨g, List.mem_of_getElem? hg, hname⟩)
          (hscanned.missing (by simp) rfl)
      | some j =>
        obtain ⟨g, hg, _⟩ := hscanned.fPos j rfl
        obtain ⟨hj, rfl⟩ := List.getElem?_eq_some_iff.mp hg
        obtain ⟨e, he, rfl, hpacked⟩ := hes'.rename hj okNew
        refine ⟨_, _, rfl, h.renamed new hlinks' hg he hscanned.fresh rfl rfl ?_ ?_⟩
        · change Packed (Store.set _ _ _ ciNew.indexBlock) _
          rw [set_self]
          exact hpacked
        · exact fun b hb => set_of_ne _ _ hb
    · simp only [if_neg hsame]
      have hnewPos := hscanned.newPos
      by_cases hlt : es'.length < maxSubfiles
      · rw [if_pos hlt] at hnewPos
        obtain rfl : newPos = some es'.length := hnewPos
        have happart : ciOld.indexBlock ≠ ciNew.indexBlock := fun heq =>
          hsame (h.apart oldDir newDir ciOld ciNew old.live new.live heq)
        have hroom := room hsame
        rw [nrEntries_eq hes] at hroom
        obtain ⟨⟨hpos, hrange⟩, _⟩ := h.tree.ledger.held oldDir src (mem_targets hat)
        obtain ⟨e, he, rfl, hpacked⟩ := hes'.insert hlt okNew hpos
          (Nat.lt_of_lt_of_le hrange h.range)
        simp only [reads 1, Bool.true_eq_false, if_false]
        have hblock : ∀ b m g, ((w.setBlock ciNew.indexBlock b).modify m g).disk ciOld.indexBlock =
            w.disk ciOld.indexBlock := fun b m g => set_of_ne _ _ happart
        simp only [hblock, hfind, if_neg (Nat.ne_of_lt hroom)]
        refine ⟨_, _, rfl, h.moved old new (Ne.symm hsame) hlinks hlinks' hat hsrc he
          hscanned.fresh rfl ((modify_of_ne _ _ (Ne.symm hsame)).trans (modify_self _ hcNew))
          ⟨rfl, rfl, rfl, rfl⟩ rfl
          (modify_self _ ((modify_of_ne _ _ hsame).trans hcOld)) ⟨rfl, rfl, rfl, rfl⟩ rfl
          ?_ ?_ ?_ ?_⟩
        · intro j hj hj'
          exact (modify_of_ne _ _ hj').trans (modify_of_ne _ _ hj)
        · change Packed (Store.set (Store.set w.disk _ _) ciOld.indexBlock _ ciNew.indexBlock) _
          rw [set_of_ne _ _ happart.symm, set_self]
          exact hpacked
        · change Packed (Store.set (Store.set w.disk _ _) ciOld.indexBlock _ ciOld.indexBlock) _
          rw [set_self]
          exact hes.remove (List.getElem?_eq_some_iff.mp hf).1
        · intro b hb hb'
          change Store.set (Store.set w.disk _ _) ciOld.indexBlock _ b = _
          rw [set_of_ne _ _ hb', set_of_ne _ _ hb]
      · rw [if_neg hlt] at hnewPos
        obtain rfl : newPos = none := hnewPos
        exact ⟨_, t, rfl, h⟩

/-- The directory has been read; only its access time is new. -/
theorem Represents.accessed (h : Represents w t) (own : LiveDir w dir d) (now : Timespec) :
    Represents (w.modify dir fun d => { d with iAtime := now }) t := by
  obtain ⟨hfolder, hnlink, es, hes, hlinks⟩ := h.directory own
  obtain ⟨hin, hc⟩ := live_eq_some.mp own.live
  have hlive : live (w.modify dir fun d => { d with iAtime := now }) dir =
      some { d with iAtime := now } := live_eq_some.mpr ⟨hin, modify_self _ hc⟩
  have hkept : ∀ i, i ≠ dir → Kept w (w.modify dir fun d => { d with iAtime := now }) t t i :=
    fun i hi => ⟨Iff.rfl, fun _ => modify_of_ne _ _ hi, rfl, rfl, rfl,
      fun n hl => (h.nodes i n hl).taken, fun _ _ => rfl⟩
  refine h.change dir dir rfl h.tree h.free (fun i hi _ => hkept i hi) ?_ ?_
  · intro i hi
    obtain rfl : i = dir := hi.elim id id
    exact Or.inr ⟨_, hlive, nodeOk_parent own ⟨rfl, rfl, rfl, rfl⟩ hfolder
      (h.nodes i d own.live).taken hes hlinks hnlink⟩
  · exact h.apart_of fun i n hl =>
      live_before own hlive rfl (fun _ => Iff.rfl) (fun hi => modify_of_ne _ _ hi) hl

theorem ouichefsLookup_tree (h : Represents w t) {who : Caller} {io : Io} (own : LiveDir w dir d)
    (ok : NameOk name) (reads : io.NoReadFails) {r : World × Except Int (Option Nat)}
    (run : ouichefsLookup w who io dir name = some r) : Represents r.1 t := by
  obtain ⟨_, _, es, hes, hlinks⟩ := h.directory own
  have hlen := ok.lt
  unfold ouichefsLookup at run
  rw [(live_eq_some.mp own.live).2, Option.bind_some, if_neg (by omega),
    if_neg (by rw [reads 0]; simp)] at run
  cases hfound : lookupLoop (w.disk d.indexBlock) name maxSubfiles 0 with
  | none =>
    rw [hfound] at run
    cases run
    exact h.accessed own io.now
  | some ino =>
    rw [hfound] at run
    obtain ⟨j, g, hg, _, hino⟩ := (lookup_lookedUp hes ok).found ino hfound
    obtain ⟨node, hl, _⟩ := h.target (mem_targets (hino ▸ links_at hlinks hg))
    -- the inode of an entry is in the cache
    unfold ouichefsIget at run
    simp only [(live_eq_some.mp hl).2] at run
    split at run
    · cases run
    · rename_i w₁ hget
      obtain rfl : w = w₁ := by
        split at hget
        · cases hget
        split at hget
        · cases hget
        · exact Except.ok.inj hget
      cases run
      exact h.accessed own io.now

end

/-- One operation on the inodes of a mounted volume, as the VFS calls it: new names
are not found, old ones are, no file is open, and no disk read fails. An entry
leaves its directory for another one only if that directory is not full. -/
inductive TreeStep : World → World → Prop
  | lookup (w : World) (who : Caller) (io : Io) (dir : Nat) (d : Inode) (name : List Byte)
      (r : World × Except Int (Option Nat)) :
      LiveDir w dir d → NameOk name → io.NoReadFails →
      ouichefsLookup w who io dir name = some r → TreeStep w r.1
  | create (w : World) (who : Caller) (io : Io) (dir : Nat) (d : Inode) (name : List Byte)
      (mode : Nat) (r : World × Int) :
      LiveDir w dir d → NameOk name →
      lookupLoop (w.disk d.indexBlock) name maxSubfiles 0 = none → io.NoReadFails →
      ouichefsCreate w who io dir name mode = some r → TreeStep w r.1
  | mkdir (w : World) (who : Caller) (io : Io) (dir : Nat) (d : Inode) (name : List Byte)
      (mode : Nat) (r : World × Int) :
      LiveDir w dir d → NameOk name →
      lookupLoop (w.disk d.indexBlock) name maxSubfiles 0 = none → io.NoReadFails →
      ouichefsMkdir w who io dir name mode = some r → TreeStep w r.1
  | unlink (w : World) (io : Io) (dir ino : Nat) (d node : Inode) (name : List Byte)
      (r : World × Int) :
      LiveDir w dir d → NameOk name →
      lookupLoop (w.disk d.indexBlock) name maxSubfiles 0 = some ino →
      live w ino = some node → sIsreg node.iMode = true → io.NoReadFails →
      ouichefsUnlink w io dir ino = some r → TreeStep w r.1
  | rmdir (w : World) (io : Io) (dir ino : Nat) (d node : Inode) (name : List Byte)
      (r : World × Int) :
      LiveDir w dir d → NameOk name →
      lookupLoop (w.disk d.indexBlock) name maxSubfiles 0 = some ino →
      LiveDir w ino node → io.NoReadFails →
      ouichefsRmdir w io dir ino = some r → TreeStep w r.1
  | rename (w : World) (io : Io) (oldDir newDir src flags : Nat) (ciOld ciNew : Inode)
      (oldName newName : List Byte) (r : World × Int) :
      LiveDir w oldDir ciOld → LiveDir w newDir ciNew → NameOk oldName → NameOk newName →
      lookupLoop (w.disk ciOld.indexBlock) oldName maxSubfiles 0 = some src →
      (oldDir ≠ newDir → nrEntries (w.disk ciOld.indexBlock) < maxSubfiles) → io.NoReadFails →
      ouichefsRename w io oldDir oldName newDir newName src flags = some r → TreeStep w r.1

section

variable {w w' : World} {t : Tree Nat (List Byte)}

theorem TreeStep.represents (h : Represents w t) (step : TreeStep w w') :
    ∃ t', Represents w' t' := by
  have hsame : ∀ {o : Option (World × Int)} {r : World × Int}, o = some r →
      (∃ q t', o = some q ∧ Represents q.1 t') → ∃ t', Represents r.1 t' := by
    rintro o r rfl ⟨q, t', heq, hq⟩
    obtain rfl := Option.some.inj heq
    exact ⟨t', hq⟩
  cases step with
  | lookup who io dir d name r own ok reads run =>
    exact ⟨t, ouichefsLookup_tree h own ok reads run⟩
  | create who io dir d name mode r parent ok absent reads run =>
    exact hsame run (ouichefsCreate_tree h parent ok absent reads)
  | mkdir who io dir d name mode r parent ok absent reads run =>
    exact hsame run (ouichefsCreate_tree h parent ok absent reads)
  | unlink io dir ino d node name r parent ok found own reg reads run =>
    refine hsame run (ouichefsUnlink_tree h parent ok found own ?_ reads)
    apply h.tree.leaf
    rw [(h.nodes ino node own).folder]
    by_contra hdir
    rw [sIsreg_of_sIsdir (by simpa using hdir)] at reg
    cases reg
  | rmdir io dir ino d node name r parent ok found own reads run =>
    exact hsame run (ouichefsRmdir_tree h parent ok found own reads)
  | rename io oldDir newDir src flags ciOld ciNew oldName newName r old new okOld okNew found room
      reads run =>
    exact hsame run (ouichefsRename_tree h old new okOld okNew found room reads)

theorem run_represents (h : Represents w t) (run : Relation.ReflTransGen TreeStep w w') :
    ∃ t', Represents w' t' := by
  induction run with
  | refl => exact ⟨t, h⟩
  | tail _ step ih =>
    obtain ⟨t', h'⟩ := ih
    exact step.represents h'

end

/-- The tree of a root without members. -/
def rootOnly (nrInodes : Nat) : Tree Nat (List Byte) where
  free := fun i => 2 ≤ i ∧ i < nrInodes
  folder := fun i => i = 1
  links := fun _ => []

theorem rootOnly_consistent (nrInodes : Nat) :
    Consistent (fun i => 0 < i ∧ i < nrInodes) 1 (rootOnly nrInodes) := by
  refine ⟨⟨fun _ => List.nodup_nil, ?_, ?_, ?_, ?_⟩, fun _ => List.nodup_nil, fun _ _ => rfl, ?_⟩
  · intro i j b hb
    cases hb
  · intro i b hb
    cases hb
  · rintro b rfl hfree
    exact absurd hfree.1 (by decide)
  · rintro b ⟨hpos, hlt⟩
    by_cases hb : b = 1
    · exact Or.inr (Or.inl hb)
    · exact Or.inl ⟨by omega, hlt⟩
  · rintro k ⟨hk, _⟩
    exact decide_eq_false (by omega)

theorem formatted_represents {ok : Nat → Bool} {stSize : Nat} {disk image : Store} {who : Caller}
    {readable : Nat → Bool} {memory : Fin 4 → Bool} {w : World}
    (formatted : mkfs ok stSize disk = some image)
    (mount : ouichefsFillSuper image who readable memory = .ok w) :
    Represents w (rootOnly w.sbi.nrInodes) := by
  obtain ⟨fits, hzero, hemitted⟩ := mkfs_emitted formatted
  have c := superblockOf_counts fits
  have m := mounted formatted mount
  obtain ⟨_, hdisk, _, uid, gid, hcache⟩ := ouichefsFillSuper_ok mount
  have hn := c.inodes
  have hused := c.used
  have hlt := c.nrBlocks_lt
  have hroom : 1 < (superblockOf stSize).nrInodes := by
    obtain ⟨_, h2, _⟩ := csb_formatted fits hzero
    have := (ouichefsFillSuper_ok mount).2.2.1
    omega
  obtain ⟨ws, _, he⟩ := hemitted (by omega)
  have hindex := rootIndex_formatted c he.root
  have honly : ∀ i, InUse w.sbi i → i = 1 := by
    rintro i ⟨hpos, hlt, hbit⟩
    rw [m.nrInodes] at hlt
    rw [m.ifreeBitmap i hlt, decide_eq_false_iff_not] at hbit
    omega
  have hlive : ∀ i node, live w i = some node → i = 1 ∧
      node = { inodeAt (image 1) 80 with iUid := uid, iGid := gid } := by
    intro i node hl
    obtain ⟨hin, hc⟩ := live_eq_some.mp hl
    obtain rfl := honly i hin
    rw [hcache] at hc
    exact ⟨rfl, (Option.some.inj hc).symm⟩
  have hdir : sIsdir (inodeAt (image 1) 80).iMode = true := by
    change sIsdir ((le32 (image 1) (4 * 20)).toNat % 65536) = true
    rw [he.root, rootInodeBlock, le32_ofWords32, if_pos rfl]
    decide
  have hlinks : (inodeAt (image 1) 80).iNlink = 2 := by
    change (le32 (image 1) (4 * 37)).toNat = 2
    rw [he.root, rootInodeBlock, le32_ofWords32]
    rfl
  refine ⟨by rw [m.nrInodes]; omega, rootOnly_consistent _, ?_, ?_, ?_, ?_, ?_⟩
  · intro i _ hi
    rw [m.nrInodes] at hi
    change 2 ≤ i ∧ i < w.sbi.nrInodes ↔ _
    rw [m.ifreeBitmap i hi, decide_eq_true_iff, m.nrInodes]
    exact ⟨fun h => h.1, fun h => ⟨h, hi⟩⟩
  · intro i hi
    refine decide_eq_false ?_
    rintro rfl
    refine hi ⟨by decide, by rw [m.nrInodes]; exact hroom, ?_⟩
    rw [m.ifreeBitmap 1 hroom]
    rfl
  · intro i hi
    rw [honly i hi, hcache]
    exact ⟨_, rfl⟩
  · intro i node hl
    obtain ⟨rfl, rfl⟩ := hlive i node hl
    refine ⟨hdir.symm, fun hfile => ?_, ?_, fun _ => ⟨[], ?_, rfl⟩, fun _ => hlinks⟩
    · change sIsdir (inodeAt (image 1) 80).iMode = false at hfile
      rw [hdir] at hfile
      cases hfile
    · change (inodeAt (image 1) 80).indexBlock < _ → _
      intro hb
      rw [m.nrBlocks] at hb
      change w.sbi.bfreeBitmap (inodeAt (image 1) 80).indexBlock = false
      rw [m.bfreeBitmap _ hb, hindex, decide_eq_false_iff_not]
      omega
    · change Packed (w.disk (inodeAt (image 1) 80).indexBlock) []
      have hblock : image (inodeAt (image 1) 80).indexBlock = zeroBlock := by
        rw [hindex, ← he.rootIndex]
        congr 1
        omega
      rw [hdisk, hblock]
      exact packed_nil fun _ _ => rfl
  · intro i j n n' hi hj _
    rw [(hlive i n hi).1, (hlive j n' hj).1]

def isLiveDir (w : World) (ino : Nat) : Bool := (live w ino).any fun d => sIsdir d.iMode

/-- The number of entries that name a directory. -/
def nrSubdirs (w : World) (d : Inode) : Nat :=
  (List.range maxSubfiles).countP fun i => isLiveDir w (fileInode (w.disk d.indexBlock) i)

/-- Slot `p.2` of the live directory `p.1` names the inode. -/
def Names (w : World) (ino : Nat) (p : Nat × Nat) : Prop :=
  ∃ d, LiveDir w p.1 d ∧ p.2 < maxSubfiles ∧ fileInode (w.disk d.indexBlock) p.2 = ino

structure TreeOk (w : World) : Prop where
  /-- Entries with an inode come first, and all bytes behind them are zero. -/
  packed : ∀ dir d, LiveDir w dir d → ∃ es, Packed (w.disk d.indexBlock) es
  names : ∀ dir d i j, LiveDir w dir d → i < maxSubfiles → j < maxSubfiles →
    fileInode (w.disk d.indexBlock) i ≠ 0 → fileInode (w.disk d.indexBlock) j ≠ 0 →
    nameOf (dirFile (w.disk d.indexBlock) i) = nameOf (dirFile (w.disk d.indexBlock) j) → i = j
  /-- Every inode in use but the root is named once. -/
  named : ∀ ino, 2 ≤ ino → InUse w.sbi ino → ∃! p, Names w ino p
  links : ∀ dir d, LiveDir w dir d → d.iNlink = 2 + nrSubdirs w d

section

variable {w : World} {t : Tree Nat (List Byte)} {dir ino : Nat} {d : Inode}

theorem liveDir_of_isLiveDir (h : isLiveDir w dir = true) : ∃ d, LiveDir w dir d := by
  unfold isLiveDir at h
  cases hl : live w dir with
  | none =>
    rw [hl] at h
    cases h
  | some d =>
    rw [hl] at h
    exact ⟨d, hl, h⟩

theorem Represents.isLiveDir_eq (h : Represents w t) (i : Nat) : isLiveDir w i = t.folder i := by
  unfold isLiveDir
  cases hl : live w i with
  | some node => exact (h.nodes i node hl).folder.symm
  | none =>
    refine (h.idle i fun hin => ?_).symm
    obtain ⟨node, hc⟩ := h.cached i hin
    rw [live_eq_some.mpr ⟨hin, hc⟩] at hl
    cases hl

/-- The slots that name an inode are the links to it. -/
theorem Represents.names_iff (h : Represents w t) (ne : ino ≠ 0) (p : Nat × Nat) :
    Names w ino p ↔ (t.targets p.1)[p.2]? = some ino := by
  obtain ⟨dir, i⟩ := p
  constructor
  · rintro ⟨d, own, hi, hino⟩
    obtain ⟨_, _, es, hes, hlinks⟩ := h.directory own
    have hlt : i < es.length := by
      by_contra hge
      rw [hes.inode_eq_zero (Nat.le_of_not_lt hge) hi] at hino
      exact ne hino.symm
    rw [targets_eq hlinks, List.getElem?_map, hes.slots i hlt]
    exact congrArg some hino
  · intro hat
    have hfolder : t.folder dir = true := by
      by_contra hno
      have hnil := h.tree.leaf dir (by simpa using hno)
      unfold Tree.targets at hat
      rw [hnil] at hat
      cases hat
    rw [← h.isLiveDir_eq] at hfolder
    obtain ⟨d, own⟩ := liveDir_of_isLiveDir hfolder
    obtain ⟨_, _, es, hes, hlinks⟩ := h.directory own
    rw [targets_eq hlinks, List.getElem?_map] at hat
    obtain ⟨f, hf, hino⟩ := Option.map_eq_some_iff.mp hat
    obtain ⟨hlt, rfl⟩ := List.getElem?_eq_some_iff.mp hf
    have hle := hes.length_le
    refine ⟨d, own, by omega, ?_⟩
    rw [← hino, hes.getElem hlt]
    rfl

theorem Represents.treeOk (h : Represents w t) : TreeOk w := by
  constructor
  · intro dir d own
    obtain ⟨_, _, es, hes, _⟩ := h.directory own
    exact ⟨es, hes⟩
  · intro dir d i j own hi hj hne hne' heq
    obtain ⟨_, _, es, hes, hlinks⟩ := h.directory own
    have hlt : ∀ i, i < maxSubfiles → fileInode (w.disk d.indexBlock) i ≠ 0 → i < es.length := by
      intro i hi hne
      by_contra hge
      exact hne (hes.inode_eq_zero (Nat.le_of_not_lt hge) hi)
    have hnodup := h.tree.names dir
    rw [names_eq hlinks] at hnodup
    have hat : ∀ i, i < maxSubfiles → fileInode (w.disk d.indexBlock) i ≠ 0 →
        (es.map nameOf)[i]? = some (nameOf (dirFile (w.disk d.indexBlock) i)) := by
      intro i hi hne
      rw [List.getElem?_map, hes.slots i (hlt i hi hne)]
      rfl
    refine (List.getElem?_inj (by simpa using hlt i hi hne) hnodup).mp ?_
    rw [hat i hi hne, hat j hj hne', heq]
  · intro ino hge hin
    have hused : ¬ t.free ino := by
      rw [h.free ino hin.1 hin.2.1, hin.2.2]
      simp
    have honce := h.tree.linked_once ⟨hin.1, hin.2.1⟩ hused (by omega)
    rwa [existsUnique_congr (h.names_iff (by omega))]
  · intro dir d own
    obtain ⟨_, hnlink, es, hes, hlinks⟩ := h.directory own
    have hzero : isLiveDir w 0 = false := by
      rw [h.isLiveDir_eq]
      exact h.idle 0 fun hin => absurd hin.1 (lt_irrefl 0)
    rw [hnlink, nrSubdirs, hes.countP_slots hzero]
    unfold Tree.subfolders
    rw [targets_eq hlinks, List.countP_congr]
    intro i _
    rw [h.isLiveDir_eq]

end

/-- On a formatted volume the directories are a tree at any time. -/
theorem tree_invariant (ok : Nat → Bool) (stSize : Nat) (disk image : Store) (who : Caller)
    (readable : Nat → Bool) (memory : Fin 4 → Bool) (w₀ w : World)
    (formatted : mkfs ok stSize disk = some image)
    (mount : ouichefsFillSuper image who readable memory = .ok w₀)
    (run : Relation.ReflTransGen TreeStep w₀ w) : TreeOk w := by
  obtain ⟨t, h⟩ := run_represents (formatted_represents formatted mount) run
  exact h.treeOk

/-- On a new volume of 100 blocks a file and a directory are made, and the file is
moved into the directory under another name. -/
theorem tree_invariant_moved : ∃ w d sub, LiveDir w 1 d ∧ LiveDir w 3 sub ∧
    lookupLoop (w.disk d.indexBlock) [97] maxSubfiles 0 = none ∧
    lookupLoop (w.disk sub.indexBlock) [99] maxSubfiles 0 = some 2 ∧ TreeOk w := by
  have hsample : (sampleRun.bind fun p => (live p.2 1).bind fun d =>
      (ouichefsMkdir p.2 ⟨0, 0, true⟩ calmIo 1 [98] 0o755).bind fun r =>
      (live r.1 1).bind fun d' => (live r.1 3).bind fun sub =>
      (ouichefsRename r.1 calmIo 1 [97] 3 [99] 2 0).bind fun q =>
      (live q.1 1).bind fun d'' => (live q.1 3).map fun sub' =>
        sIsdir d.iMode && sIsdir d'.iMode && sIsdir sub.iMode && sIsdir d''.iMode &&
        sIsdir sub'.iMode &&
        decide (lookupLoop (p.2.disk d.indexBlock) [98] maxSubfiles 0 = none) &&
        decide (lookupLoop (r.1.disk d'.indexBlock) [97] maxSubfiles 0 = some 2) &&
        decide (nrEntries (r.1.disk d'.indexBlock) < maxSubfiles) &&
        decide (lookupLoop (q.1.disk d''.indexBlock) [97] maxSubfiles 0 = none) &&
        decide (lookupLoop (q.1.disk sub'.indexBlock) [99] maxSubfiles 0 = some 2)) =
      some true := by
    decide +kernel
  obtain ⟨p, hp, hsample⟩ := Option.bind_eq_some_iff.mp hsample
  obtain ⟨d, hd, hsample⟩ := Option.bind_eq_some_iff.mp hsample
  obtain ⟨r, hr, hsample⟩ := Option.bind_eq_some_iff.mp hsample
  obtain ⟨d', hd', hsample⟩ := Option.bind_eq_some_iff.mp hsample
  obtain ⟨sub, hsub, hsample⟩ := Option.bind_eq_some_iff.mp hsample
  obtain ⟨q, hq, hsample⟩ := Option.bind_eq_some_iff.mp hsample
  obtain ⟨d'', hd'', hsample⟩ := Option.bind_eq_some_iff.mp hsample
  obtain ⟨sub', hsub', hall⟩ := Option.map_eq_some_iff.mp hsample
  simp only [Bool.and_eq_true, decide_eq_true_eq] at hall
  obtain ⟨⟨⟨⟨⟨⟨⟨⟨⟨hdir, hdir'⟩, hsdir⟩, hdir''⟩, hsdir'⟩, hfree⟩, hfound⟩, hroom⟩, hgone⟩, hmoved⟩ :=
    hall
  obtain ⟨image, d₀, r₁, himage, hw₀, hdir₀, hrun₁, heq⟩ := sampleRun_first hp
  obtain ⟨_, _, es, hes, hlinks⟩ := (formatted_represents himage hw₀).directory hdir₀
  obtain rfl : es = [] := List.map_eq_nil_iff.mp hlinks.symm
  have habsent : lookupLoop (p.1.disk d₀.indexBlock) [97] maxSubfiles 0 = none := by
    rw [maxSubfiles, lookupLoop, if_pos (hes.inode_eq_zero (Nat.le_refl 0) (by decide))]
  have hcreate := TreeStep.create p.1 _ calmIo 1 d₀ _ _ r₁ hdir₀ ⟨by decide, by decide, by decide⟩
    habsent (fun _ => rfl) hrun₁
  rw [heq] at hcreate
  have hmkdir := TreeStep.mkdir p.2 _ calmIo 1 d _ _ r ⟨hd, hdir⟩
    ⟨by decide, by decide, by decide⟩ hfree (fun _ => rfl) hr
  have hrename := TreeStep.rename r.1 calmIo 1 3 2 0 d' sub [97] [99] q ⟨hd', hdir'⟩ ⟨hsub, hsdir⟩
    ⟨by decide, by decide, by decide⟩ ⟨by decide, by decide, by decide⟩ hfound (fun _ => hroom)
    (fun _ => rfl) hq
  exact ⟨q.1, d'', sub', ⟨hd'', hdir''⟩, ⟨hsub', hsdir'⟩, hgone, hmoved,
    tree_invariant _ _ _ _ _ _ _ _ _ himage hw₀
      (((Relation.ReflTransGen.single hcreate).tail hmkdir).tail hrename)⟩

end DirTree
