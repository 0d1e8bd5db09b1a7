import OuicheFs.FileSystem

/-!
# Inodes that are not written back

At unmount the kernel writes the inodes that `mark_inode_dirty` has marked. The others
have to stand on the disk as they are in memory. Every call sees to that, but two: a write
that takes blocks or fills a gap and then writes nothing marks nothing, and an inode that
could not be written is not marked any more.
-/
namespace WriteBack

open CInt Bits ByteBuffer IndexEntry Allocator FileContext Layout OuicheRead OuicheWrite OuicheDefrag
  OuicheInode OuicheDir OuicheSuper Mkfs LightWrite FileRun Ledger Ownership Lifecycle VolumeRun
  Directory Hierarchy DirTree Isolation InodeCount WholeVolume Remount InodeStore OuicheSync FileTree
  FileSystem

/-- Every live inode that is not marked is on the disk as it is in memory. -/
def Saved (m : Mount) : Prop :=
  ∀ i n, live m.world i = some n → m.dirty i = false → Recorded m.world i n

/-- A call that leaves no change unmarked: a write that wrote nothing has left the size and
the number of blocks, and an inode that is not marked any more has reached the disk. -/
def Settled (m : Mount) : Call Nat Name Byte → Mount → Prop
  | .write i _ _ written _, m' => written = 0 → ∀ n n', live m.world i = some n →
      live m'.world i = some n' → n'.iSize = n.iSize ∧ n'.iBlocks = n.iBlocks
  | .flush, m' => ∀ i n, m.dirty i = true → m'.dirty i = false → live m'.world i = some n →
      Recorded m'.world i n
  | _, _ => True

/-- The inode store and all inodes but these are as before. -/
structure Keeps (w w' : World) (is : List Nat) : Prop where
  store : ∀ b, b < metaEnd w.sbi → w'.disk b = w.disk b
  nodes : ∀ i, i ∉ is → ∀ n', live w' i = some n' →
    ∃ n, live w i = some n ∧ Refreshed n n' ∧ n'.iNlink = n.iNlink

section

variable {w w' : World} {t : Tree Nat (List Byte)} {is : List Nat} {dirty : Nat → Bool}

theorem Keeps.refl (w : World) : Keeps w w is :=
  ⟨fun _ _ => rfl, fun _ _ n' hl => ⟨n', hl, ⟨rfl, rfl, rfl, rfl⟩, rfl⟩⟩

theorem Keeps.mono {is' : List Nat} (k : Keeps w w' is) (sub : is ⊆ is') : Keeps w w' is' :=
  ⟨k.store, fun i hi => k.nodes i fun hmem => hi (sub hmem)⟩

/-- The other inodes are untouched in the cache. -/
theorem keeps_of_cache (store : ∀ b, b < metaEnd w.sbi → w'.disk b = w.disk b)
    (nodes : ∀ i, i ∉ is → ∀ n, live w' i = some n → live w i = some n) : Keeps w w' is :=
  ⟨store, fun i hi n' hl => ⟨n', nodes i hi n' hl, ⟨rfl, rfl, rfl, rfl⟩, rfl⟩⟩

theorem stored_congr (areas : Areas w.sbi) (store : ∀ b, b < metaEnd w.sbi → w'.disk b = w.disk b)
    {i : Nat} (lt : i < w.sbi.nrInodes) : stored w'.disk i = stored w.disk i := by
  have hrange := (store_block_range areas.store lt).2
  unfold stored
  rw [store _ (by unfold metaEnd; omega)]

theorem mark_eq_false {i : Nat} : mark is dirty i = false ↔ i ∉ is ∧ dirty i = false := by
  simp [mark]

/-- What is marked need not be on the disk. -/
theorem Keeps.saved (k : Keeps w w' is) (areas : Areas w.sbi) (s : Saved ⟨w, dirty⟩) :
    Saved ⟨w', mark is dirty⟩ := by
  intro i n' hl hclean
  obtain ⟨hout, hd⟩ := mark_eq_false.mp hclean
  obtain ⟨n, hn, hfresh, hnlink⟩ := k.nodes i hout n' hl
  obtain ⟨hr, hr'⟩ := (s i n hn hd).congr
    (stored_congr areas k.store (live_eq_some.mp hn).1.2.1 : stored w'.disk i = _)
  exact ⟨⟨hr.mode.trans hfresh.mode.symm, hr.index.trans hfresh.index.symm,
    hr.iBlocks.trans hfresh.iBlocks.symm, hr.iSize.trans hfresh.iSize.symm⟩,
    hr'.trans hnlink.symm⟩

/-! ## What every call keeps -/

theorem keeps_modify (w : World) (dir : Nat) (g : Inode → Inode) : Keeps w (w.modify dir g) [dir] := by
  refine keeps_of_cache (fun _ _ => rfl) fun i hi n hl => ?_
  obtain ⟨hin, hc⟩ := live_eq_some.mp hl
  rw [modify_of_ne w g (List.ne_of_not_mem_cons hi)] at hc
  exact live_eq_some.mpr ⟨hin, hc⟩

theorem Abandoned.keeps (h : WorldInv w) (a : Abandoned w w') : Keeps w w' is := by
  refine keeps_of_cache (fun b _ => by rw [a.disk]) fun i _ n hl => ?_
  obtain ⟨hin, hc⟩ := live_eq_some.mp hl
  rw [(a.settled h.blocks).2] at hc
  exact live_eq_some.mpr ⟨(inUse_congr a.layout (a.inodes i hin.1)).mp hin, hc⟩

theorem Created.keeps {dir ino bno mode : Nat} {d : Inode} (h : WorldInv w)
    (c : Created w dir d ino bno mode w') (parent : LiveDir w dir d) : Keeps w w' [ino, dir] := by
  obtain ⟨w₁, new, sbi⟩ := c.new
  refine keeps_of_cache (fun b hb => c.frame b ?_ ?_) fun i hi n hl => ?_
  · rintro rfl
    exact h.ledger.reserved_taken b hb new.bno_free
  · rintro rfl
    exact Nat.not_lt.mpr (h.used (index_mem_holds parent.live)).2 hb
  · rw [List.mem_cons, List.mem_singleton, not_or] at hi
    obtain ⟨hin, hc⟩ := live_eq_some.mp hl
    rw [c.others i hi.1 hi.2] at hc
    refine live_eq_some.mpr ⟨(inUse_congr (sbi ▸ new.layout) ?_).mp hin, hc⟩
    rw [sbi, new.inodes, clearBit_of_ne _ hi.1]

theorem Removed.keeps {dir ino : Nat} {d : Inode} {freed : List Nat} (h : WorldInv w)
    (r : Removed w dir d ino freed w') (parent : LiveDir w dir d) : Keeps w w' [dir, ino] := by
  refine keeps_of_cache (fun b hb => r.frame b ?_ ?_) fun i hi n hl => ?_
  · exact fun hmem => Nat.not_lt.mpr (h.used hmem).2 hb
  · rintro rfl
    exact Nat.not_lt.mpr (h.used (index_mem_holds parent.live)).2 hb
  · rw [List.mem_cons, List.mem_singleton, not_or] at hi
    obtain ⟨hin, hc⟩ := live_eq_some.mp hl
    rw [r.others i hi.2 hi.1] at hc
    exact live_eq_some.mpr ⟨(r.inUse_iff hi.2).mp hin, hc⟩

/-- The new inode has the number that `get_free_inode` returns. -/
theorem created_number {who : Caller} {io : Io} {dir ino bno mode : Nat} {d : Inode}
    {name : List Byte} {r : World × Int} (run : ouichefsCreate w who io dir name mode = some r)
    (done : r.2 = 0) (c : Created w dir d ino bno mode r.1) : ino = (getFreeInode w.sbi).1 := by
  obtain ⟨d', _, hexits⟩ := ouichefsCreate_exits run
  rcases hexits with ⟨_, hneg⟩ | ⟨ret, hnew, hret⟩ | ⟨w₁, ino', node, hnew, _, hend⟩
  · omega
  · rcases ouichefsNewInode_cases w who io d' mode with ⟨ret', hret', hneg, _⟩ | ⟨_, _, hok, _⟩
    · rw [hnew] at hret'
      cases hret'
      omega
    · rw [hnew] at hok
      cases hok
  have hsbi : r.1.sbi = w₁.sbi := by
    rcases hend with ⟨_, hr⟩ | ⟨_, hr⟩
    · rw [hr] at done
      exact absurd done (show -errIo ≠ 0 by decide)
    · rw [hr]
      rfl
  obtain ⟨w₂, new, sbi⟩ := c.new
  rcases ouichefsNewInode_cases w who io d' mode with ⟨_, herr, _⟩ | ⟨ino'', bno', hok, new'⟩
  · rw [hnew] at herr
    cases herr
  rw [hnew] at hok new'
  cases hok
  -- both numbers are the bit that has been cleared
  have hbits : clearBit w.sbi.ifreeBitmap ino ino = clearBit w.sbi.ifreeBitmap ino' ino := by
    rw [← new.inodes, ← new'.inodes, ← sbi, hsbi]
  have hino : ino = ino' := by
    by_contra hne
    rw [clearBit_self, clearBit_of_ne _ hne, new.was_free] at hbits
    cases hbits
  rw [hino]
  unfold ouichefsNewInode at hnew
  simp only at hnew
  repeat' split at hnew
  all_goals first
    | cases hnew; rfl
    | cases hnew

theorem ouichefsRename_cache {io : Io} {oldDir newDir src flags : Nat} {oldName newName : List Byte}
    {r : World × Int} (run : ouichefsRename w io oldDir oldName newDir newName src flags = some r)
    {j : Nat} (ne : oldDir ≠ newDir → j ≠ newDir ∧ j ≠ oldDir) : r.1.icache j = w.icache j := by
  unfold ouichefsRename at run
  obtain ⟨ciOld, _, run⟩ := Option.bind_eq_some_iff.mp run
  obtain ⟨ciNew, _, run⟩ := Option.bind_eq_some_iff.mp run
  obtain ⟨inode, _, run⟩ := Option.bind_eq_some_iff.mp run
  split at run
  · cases run
    rfl
  split at run
  · cases run
    rfl
  split at run
  · cases run
    rfl
  simp only at run
  split at run
  · cases run
    rfl
  split at run
  · obtain ⟨_, _, hr⟩ := Option.map_eq_some_iff.mp run
    rw [← hr]
    rfl
  rename_i hdirs
  obtain ⟨hnew, hold⟩ := ne hdirs
  split at run
  · cases run
    rfl
  split at run
  · cases run
    exact modify_of_ne _ _ hnew
  split at run
  · cases run
  split at run
  · cases run
  · cases run
    exact (modify_of_ne _ _ hold).trans (modify_of_ne _ _ hnew)

theorem Relinked.keeps (h : WorldInv w) (r : Relinked w w')
    (cache : ∀ j, j ∉ is → w'.icache j = w.icache j) : Keeps w w' is := by
  refine keeps_of_cache (fun b hb => ?_) fun i hi n hl => ?_
  · rcases r.disk b with heq | ⟨j, n, hn, rfl⟩
    · exact heq
    · exact absurd hb (Nat.not_lt.mpr (h.used (index_mem_holds hn.live)).2)
  · obtain ⟨hin, hc⟩ := live_eq_some.mp hl
    rw [cache i hi] at hc
    exact live_eq_some.mpr ⟨r.sbi ▸ hin, hc⟩

section

variable {a : Nat} {node : Inode} {es es' : List Word} {s : Ctx}

theorem effect_keeps (h : WorldInv w) (own : live w a = some node)
    (reg : sIsreg node.iMode = true) (hholds : holds w a = node.indexBlock :: numbers es)
    (e : Effect (w.ctx node calmIo) es s es') : Keeps w (w.withCtx a s) [a] := by
  have hisolated := isolated_of_effect h own reg hholds e
  refine keeps_of_cache hisolated.metadata fun i hi n hl => ?_
  rw [← hisolated.live i (List.ne_of_not_mem_cons hi)]
  exact hl

/-- A call that keeps size and number of blocks keeps all that is on the disk. -/
theorem effect_keeps_all (h : WorldInv w) (own : live w a = some node)
    (reg : sIsreg node.iMode = true) (hholds : holds w a = node.indexBlock :: numbers es)
    (e : Effect (w.ctx node calmIo) es s es')
    (kept : ∀ n, live (w.withCtx a s) a = some n → n.iSize = node.iSize ∧ n.iBlocks = node.iBlocks) :
    Keeps w (w.withCtx a s) is := by
  have hkeeps := effect_keeps h own reg hholds e
  refine ⟨hkeeps.store, fun i _ n hl => ?_⟩
  by_cases hi : i = a
  · subst hi
    obtain ⟨hsize, hblocks⟩ := kept n hl
    have hc : (w.withCtx i s).icache i = some s.node := by simp [World.withCtx, World.cache]
    obtain rfl := Option.some.inj ((live_eq_some.mp hl).2.symm.trans hc)
    exact ⟨node, own, ⟨e.mode, e.index, hblocks, hsize⟩, e.nlink⟩
  · exact hkeeps.nodes i (by simpa using hi) n hl

end

/-! ## Runs -/

theorem unlinked_keeps (h : VolumeInv w t) {io : Io} {dir ino : Nat} {d node : Inode} {name : Name}
    {r : World × Int} (parent : LiveDir w dir d)
    (found : lookupLoop (w.disk d.indexBlock) name.1 maxSubfiles 0 = some ino)
    (own : live w ino = some node) (empty : t.links ino = []) (reads : io.NoReadFails)
    (run : ouichefsUnlink w io dir ino = some r) :
    Keeps w r.1 (if r.2 = 0 then [dir, ino] else []) := by
  obtain ⟨_, _, es, hes, _⟩ := h.directory parent
  have hfind := (h.lookup_eq parent name.2).symm.trans found
  have hne : ino ≠ dir := by
    rintro rfl
    have hlink := h.found hfind
    rw [empty] at hlink
    cases hlink
  obtain ⟨hzero, k, f, _, _, hpruned⟩ := h.pruned_of_run parent own hne hes reads run
  obtain ⟨freed, _, hremoved⟩ := hpruned.removed
  rw [if_pos hzero]
  exact Removed.keeps h.world hremoved parent

/-- A settled call keeps the disk up to date but for the marked inodes. -/
theorem FsStep.saved {m m' : Mount} {call : Call Nat Name Byte} (session : Session m.world)
    (saved : Saved m) (step : FsStep m call m') (settled : Settled m call m') : Saved m' := by
  obtain ⟨⟨t, h⟩, counted, areas, magic, _⟩ := session
  cases step with
  | lookup w dirty who io dir d name r own reads run =>
    refine Keeps.saved ?_ areas saved
    rw [h.lookup_run own name.2 reads run]
    exact keeps_modify w dir _
  | create w dirty who io dir d name mode r parent absent reads run =>
    refine Keeps.saved ?_ areas saved
    obtain ⟨_, _, es, hes, _⟩ := h.directory parent
    rcases h.create_cases parent name.2 hes absent reads run with
      ⟨_, habandoned⟩ | ⟨hzero, ino, bno, f, hgrown⟩
    · exact Abandoned.keeps h.world habandoned
    · rw [if_pos hzero, ← created_number run hzero hgrown.created]
      exact Created.keeps h.world hgrown.created parent
  | mkdir w dirty who io dir d name mode r parent absent reads run =>
    refine Keeps.saved ?_ areas saved
    obtain ⟨_, _, es, hes, _⟩ := h.directory parent
    rcases h.create_cases parent name.2 hes absent reads run with
      ⟨_, habandoned⟩ | ⟨hzero, ino, bno, f, hgrown⟩
    · exact Abandoned.keeps h.world habandoned
    · rw [if_pos hzero, ← created_number run hzero hgrown.created]
      exact Created.keeps h.world hgrown.created parent
  | unlink w dirty io dir ino d node name r parent found own reg reads run =>
    refine Keeps.saved ?_ areas saved
    have hfile : sIsdir node.iMode = false := by
      by_contra hdir
      rw [sIsreg_of_sIsdir (by simpa using hdir)] at reg
      cases reg
    have hempty := h.tree.tree.leaf ino ((h.folder own).trans hfile)
    exact unlinked_keeps h parent found own hempty reads run
  | rmdir w dirty io dir ino d node name r parent found own reads run =>
    refine Keeps.saved ?_ areas saved
    rcases h.rmdir_cases own reads run with ⟨_, heq, _⟩ | ⟨hempty, hrun⟩
    · rw [heq]
      exact Keeps.refl w
    · exact unlinked_keeps h parent found own.live hempty (fun n => reads (n + 1)) hrun
  | rename w dirty io oldDir newDir src flags ciOld ciNew oldName newName r old new found room reads
      run =>
    refine Keeps.saved ?_ areas saved
    rcases h.rename_cases old new oldName.2 newName.2
      ((h.lookup_eq old oldName.2).symm.trans found) room reads run with ⟨_, heq⟩ | ⟨hzero, _, hrel, _⟩
    · rw [heq]
      exact Keeps.refl w
    · refine Relinked.keeps h.world hrel fun j hj => ouichefsRename_cache run fun hdirs => ?_
      rw [if_pos ⟨hzero, hdirs⟩, List.mem_cons, List.mem_singleton, not_or] at hj
      exact hj
  | read w dirty before io ino node fFlags size pos r own reg small run =>
    rw [(read_refines h own reg before io fFlags size small run).1]
    exact saved
  | write w dirty io ino node fFlags pos data r own reg run =>
    refine Keeps.saved ?_ areas saved
    obtain ⟨es, hinv, hholds⟩ := h.world.fileInv own reg calmIo
    obtain ⟨es', heff⟩ := FileStep.effect hinv
      (FileStep.lightWrite (w.ctx node calmIo) io fFlags pos data)
    have heff : Effect (w.ctx node calmIo) es r.ctx es' := run ▸ heff
    by_cases hpos : 0 < r.pos - startPos (w.ctx node io) fFlags pos
    · rw [if_pos hpos]
      exact effect_keeps h.world own reg hholds heff
    · exact effect_keeps_all h.world own reg hholds heff fun n hl =>
        settled (Nat.eq_zero_of_not_pos hpos) node n own hl
  | defrag w dirty io ino fuel node r own reg run =>
    refine Keeps.saved ?_ areas saved
    obtain ⟨es, hinv, hholds⟩ := h.world.fileInv own reg calmIo
    obtain ⟨es', htidied, _, hstopped⟩ := defrag_tidied (hinv.withIo io) run
    have heff : Effect (w.ctx node calmIo) es r.1 es' := Effect.ofIo htidied.effect
    by_cases hdone : r.2 = 0
    · rw [if_pos hdone]
      exact effect_keeps h.world own reg hholds heff
    · refine effect_keeps_all h.world own reg hholds heff fun n hl => ?_
      have hc : (w.withCtx ino r.1).icache ino = some node := by
        rw [← show r.1.node = node from hstopped hdone]
        simp [World.withCtx, World.cache]
      obtain rfl := Option.some.inj ((live_eq_some.mp hl).2.symm.trans hc)
      exact ⟨rfl, rfl⟩
  | writeInode w dirty ok ino node hc hdirty =>
    intro i n hl hclean
    by_cases hi : i = ino
    · subst hi
      exact settled i n hdirty hclean hl
    · have hd : dirty i = false := by simpa [unmark, hi] using hclean
      have hlive := (writeInode_filed areas ok ino node).live_eq i
      exact (saved i n (hlive.symm.trans hl) hd).congr (stored_writeInode_ne w ok node hi)
  | syncFs w dirty readable =>
    intro i n hl hd
    have hlive : live w i = some n := ((syncFs_filed areas readable).live_eq i).symm.trans hl
    have hrange := store_block_range areas.store (live_eq_some.mp hlive).1.2.1
    refine (saved i n hlive hd).congr ?_
    unfold stored
    rw [synced_frame areas readable (Or.inl ⟨hrange.1, by omega⟩)]
  | remount w w' dirty who readable written loaded all fit recorded reads mem used run =>
    obtain ⟨m, _, hrun, _, _, _, _, _, _, hrecorded⟩ :=
      remount_refines h (storable areas magic counted fit recorded) reads mem used
    rw [run] at hrun
    cases hrun
    exact fun i n hl _ => hrecorded i n hl

/-- After a mount nothing but the root is in memory. -/
theorem mounted_saved {image : Store} {who : Caller} {readable : Nat → Bool} {memory : Fin 4 → Bool}
    (mount : ouichefsFillSuper image who readable memory = .ok w) : Saved (clean w) := by
  obtain ⟨_, hdisk, _, uid, gid, hcache⟩ := ouichefsFillSuper_ok mount
  intro i n hl _
  have hc := (live_eq_some.mp hl).2
  rw [show (clean w).world = w from rfl, hcache] at hc
  by_cases hi : i = 1
  · obtain rfl := Option.some.inj ((if_pos hi).symm.trans hc)
    change Refreshed _ (stored w.disk i) ∧ (stored w.disk i).iNlink = _
    rw [hdisk, hi]
    exact ⟨⟨rfl, rfl, rfl, rfl⟩, rfl⟩
  · exact absurd ((if_neg hi).symm.trans hc) (by simp)

end

/-- Unmounting after any run whose calls leave no change unmarked, and mounting the image
again, gives back the same volume with the same space. -/
theorem remount_same (ok : Nat → Bool) (stSize : Nat) (disk image : Store) (who who' : Caller)
    (readable readable' : Nat → Bool) (memory : Fin 4 → Bool) (w₀ w : World)
    (dirty : Nat → Bool) (calls : List (Call Nat Name Byte)) (written : List Nat)
    (formatted : mkfs ok stSize disk = some image)
    (mount : ouichefsFillSuper image who readable memory = .ok w₀)
    (small : stSize / 4096 ≤ 524288)
    (run : Loop.Run (fun m c m' => FsStep m c m' ∧ Settled m c m') (clean w₀) calls ⟨w, dirty⟩)
    (marked : ∀ i, InUse w.sbi i → (i ∈ written ↔ dirty i = true))
    (fit : ∀ i ∈ written, ∀ n, live w i = some n → NodeFits n)
    (reads : ∀ b, readable' b = true) (mem : who'.memory = true) :
    ∃ m, ouichefsFillSuper (unmount written readable' w) who' readable' (fun _ => true) = .ok m ∧
      view m = view w ∧ (∀ i, InUse m.sbi i ↔ InUse w.sbi i) ∧
      ouichefsStatfs m.sbi = ouichefsStatfs w.sbi := by
  obtain ⟨session, saved⟩ := run.keeps (fun m => Session m.world ∧ Saved m)
    (fun m c m' hm step => ⟨(step.1.refines hm.1).1, FsStep.saved hm.1 hm.2 step.1 step.2⟩)
    ⟨formatted_session formatted mount small, mounted_saved mount⟩
  obtain ⟨⟨t, h⟩, counted, areas, magic, _⟩ := session
  have hrecorded : ∀ i, i ∉ written → ∀ n, live w i = some n → Recorded w i n := by
    intro i hi n hl
    refine saved i n hl (Bool.eq_false_iff.mpr fun hd => hi ?_)
    exact (marked i (live_eq_some.mp hl).1).mpr hd
  obtain ⟨loaded, used⟩ : ∃ loaded : List Nat, ∀ i, i ∈ loaded ↔ InUse w.sbi i := by
    refine ⟨(List.range w.sbi.nrInodes).filter fun i => decide (InUse w.sbi i), fun i => ?_⟩
    rw [List.mem_filter, List.mem_range, decide_eq_true_iff]
    exact ⟨fun hi => hi.2, fun hin => ⟨hin.2.1, hin⟩⟩
  obtain ⟨m, hm, _, hview, hresumed, hsbi, _⟩ :=
    remount_refines h (storable areas magic counted fit hrecorded) reads mem used
  refine ⟨m, hm, hview, hsbi ▸ hresumed.inUse, ?_⟩
  unfold ouichefsStatfs
  rw [← hsbi, hresumed.layout.nrBlocks, hresumed.layout.nrInodes, hresumed.count,
    hresumed.inodeCount]

/-- The root is written before the file of the sample gets its bytes, so that at unmount
only the file is. -/
theorem remount_same_written : ∃ w m, live w 2 ≠ none ∧
    ouichefsFillSuper (unmount [2] (fun _ => true) w) ⟨0, 0, true⟩ (fun _ => true)
      (fun _ => true) = .ok m ∧ view m = view w ∧ ouichefsStatfs m.sbi = ouichefsStatfs w.sbi := by
  have hsample : (sampleRun.bind fun p => (live p.2 1).bind fun d =>
      (live (ouichefsWriteInode p.2 true 1 d).1 2).bind fun n =>
      (sampleWrite (ouichefsWriteInode p.2 true 1 d).1 0 [66, 67]).bind fun r =>
      (live ((ouichefsWriteInode p.2 true 1 d).1.withCtx 2 r.ctx) 2).map fun n' =>
        decide (NodeFits d) && sIsreg n.iMode && decide (r.pos = 2 ∧ r.ret = 2) &&
          decide (NodeFits n')) = some true := by
    decide +kernel
  obtain ⟨p, hp, hsample⟩ := Option.bind_eq_some_iff.mp hsample
  obtain ⟨d, hd, hsample⟩ := Option.bind_eq_some_iff.mp hsample
  obtain ⟨n, hn, hsample⟩ := Option.bind_eq_some_iff.mp hsample
  obtain ⟨r, hr, hsample⟩ := Option.bind_eq_some_iff.mp hsample
  obtain ⟨n', hn', hsample⟩ := Option.map_eq_some_iff.mp hsample
  simp only [Bool.and_eq_true, decide_eq_true_eq] at hsample
  obtain ⟨⟨⟨hfits, hreg⟩, hfull⟩, hfits'⟩ := hsample
  obtain ⟨image, _, _, himage, hw₀, hcreate, _⟩ := sampleRun_step hp
  obtain ⟨hin, hc⟩ := live_eq_some.mp hd
  have hflush := FsStep.writeInode p.2 (mark [2, 1] fun _ => false) true 1 d hc rfl
  have hwrite := sampleWrite_step hr hn hreg hfull (by decide)
    (unmark 1 (mark [2, 1] fun _ => false))
  have hsettled : Settled ⟨p.2, mark [2, 1] fun _ => false⟩ .flush
      ⟨(ouichefsWriteInode p.2 true 1 d).1, unmark 1 (mark [2, 1] fun _ => false)⟩ := by
    intro i node _ hclean hl
    have hi : i = 1 := by
      by_contra hne
      simp_all [unmark, mark]
    subst hi
    have hc' : (ouichefsWriteInode p.2 true 1 d).1.icache 1 = p.2.icache 1 := by
      unfold ouichefsWriteInode
      rw [if_neg (Nat.not_le.mpr hin.2.1)]
      rfl
    have hnode : node = d := Option.some.inj ((live_eq_some.mp hl).2.symm.trans (hc'.trans hc))
    rw [hnode]
    exact recorded_of_stored (stored_writeInode_self hin.2.1 hfits)
  have hmarked : ∀ i, i ∈ [2] ↔
      mark [2] (unmark 1 (mark [2, 1] fun _ => false)) i = true := by
    intro i
    simp only [mark, unmark, List.mem_cons, List.not_mem_nil, or_false, Bool.or_eq_true,
      Bool.and_eq_true, decide_eq_true_eq, Bool.false_eq_true]
    omega
  obtain ⟨m, hm, hview, _, hstatfs⟩ := remount_same _ _ _ _ _ ⟨0, 0, true⟩ _ (fun _ => true) _ _ _ _ _
    [2] himage hw₀ (by decide) (.cons ⟨hcreate, trivial⟩ (.cons ⟨hflush, hsettled⟩
      (.single ⟨hwrite, fun hzero => absurd hzero (by decide)⟩))) (fun i _ => hmarked i)
      (fun i hi node hl => by
        obtain rfl := List.mem_singleton.mp hi
        exact Option.some.inj (hl.symm.trans hn') ▸ hfits') (fun _ => rfl) rfl
  exact ⟨_, m, by rw [hn']; simp, hm, hview, hstatfs⟩

end WriteBack
