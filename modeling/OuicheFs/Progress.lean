import OuicheFs.FileSystem
import OuicheFs.Rename

/-!
# What calls on directories return

In every state that is reached a call on directories returns, and the value follows
from what is there: as long as no read fails, a call is refused for lack of room or
because of the names, and for nothing else.
-/
namespace Progress

open CInt Bits ByteBuffer Allocator FileContext OuicheInode OuicheDir OuicheSuper Mkfs Rename Ownership
  Lifecycle VolumeRun Directory Hierarchy DirTree InodeCount WholeVolume Remount FileSystem FileTree

section

variable {w : World} {t : Tree Nat (List Byte)} {who : Caller} {io : Io} {dir mode : Nat}
  {d : Inode}

/-! ## Creation -/

theorem getFreeInode_none {sbi : SbInfo} (none : popcount sbi.ifreeBitmap sbi.nrInodes = 0) :
    (getFreeInode sbi).1 = 0 := by
  have hall : findFirstBit sbi.ifreeBitmap sbi.nrInodes = sbi.nrInodes := by
    refine (findFirstBit_eq_size_iff _ _).mpr fun i hi => ?_
    by_contra hset
    have := (popcount_pos_iff _ _).mpr ⟨i, hi, by simpa using hset⟩
    omega
  unfold getFreeInode getFirstFreeBit
  simp [hall]

theorem getFreeInode_some {sbi : SbInfo} (zero : sbi.ifreeBitmap 0 = false)
    (some : 0 < popcount sbi.ifreeBitmap sbi.nrInodes) : (getFreeInode sbi).1 ≠ 0 := by
  obtain ⟨i, hi, hfree⟩ := (popcount_pos_iff _ _).mp some
  have hne : findFirstBit sbi.ifreeBitmap sbi.nrInodes ≠ sbi.nrInodes := by
    intro heq
    rw [(findFirstBit_eq_size_iff _ _).mp heq i hi] at hfree
    cases hfree
  have hlt := Nat.lt_of_le_of_ne (findFirstBit_le _ _) hne
  have hset := findFirstBit_set hlt
  have hpos : findFirstBit sbi.ifreeBitmap sbi.nrInodes ≠ 0 := by
    intro hz
    rw [hz, zero] at hset
    cases hset
  unfold getFreeInode getFirstFreeBit
  simp [hne, hpos]

/-- There is an inode and a block for a new file. -/
def Room (sbi : SbInfo) : Prop :=
  0 < popcount sbi.ifreeBitmap sbi.nrInodes ∧ 0 < popcount sbi.bfreeBitmap sbi.nrBlocks

instance (sbi : SbInfo) : Decidable (Room sbi) := inferInstanceAs (Decidable (_ ∧ _))

/-- The counter of free inodes is too high to refuse anything, but the bitmap is not. -/
theorem newInode_full (blocks : BlocksOk w.sbi)
    (type : ¬ (sIsdir mode = false ∧ sIsreg mode = false)) (full : ¬ Room w.sbi) :
    (ouichefsNewInode w who io d mode).2 = .error (-errNospc) := by
  unfold ouichefsNewInode
  rw [if_neg type]
  by_cases hcount : w.sbi.nrFreeInodes = 0 ∨ w.sbi.nrFreeBlocks = 0
  · rw [if_pos hcount]
  · rw [if_neg hcount]
    have hblocks : 0 < popcount w.sbi.bfreeBitmap w.sbi.nrBlocks := by
      rw [← blocks.counter]
      omega
    have hnone : popcount w.sbi.ifreeBitmap w.sbi.nrInodes = 0 := by
      by_contra hpos
      exact full ⟨Nat.pos_of_ne_zero hpos, hblocks⟩
    simp only [getFreeInode_none hnone, if_true]

theorem iget_ok {ino : Nat} (mem : who.memory = true) (read : io.bread 1 = true)
    (lt : ino < w.sbi.nrInodes) :
    ∃ node, ouichefsIget w who (io.bread 1) ino = .ok (w.cache ino node) := by
  rcases ouichefsIget_spec w who (io.bread 1) ino with ⟨ret, herr, _⟩ | hok
  · exfalso
    unfold ouichefsIget at herr
    simp only [if_neg (Nat.not_le.mpr lt), mem, read, Bool.true_eq_false, if_false] at herr
    split at herr <;> cases herr
  · exact hok

theorem newInode_room (counted : OneTooMany w.sbi) (blocks : BlocksOk w.sbi)
    (type : ¬ (sIsdir mode = false ∧ sIsreg mode = false)) (room : Room w.sbi)
    (mem : who.memory = true) (reads : io.NoReadFails) : ∃ w' ino node,
    ouichefsNewInode w who io d mode = (w', .ok ino) ∧ w'.icache ino = some node := by
  have hcounter := counted.counter
  have hpos := room.2
  rw [← blocks.counter] at hpos
  have hino := getFreeInode_some counted.zero_used room.1
  obtain ⟨_, hnr, hlt⟩ := getFreeInode_oneTooMany counted
  obtain ⟨hbitmap, hcount⟩ := getFreeInode_blocks w.sbi
  obtain ⟨v, hv⟩ : ∃ v : World, v = { w with sbi := (getFreeInode w.sbi).2 } := ⟨_, rfl⟩
  obtain ⟨node, hget⟩ := iget_ok (w := v) mem (reads 1) (by
    rw [hv]
    exact hnr ▸ (hlt hino).1)
  have hblocks : BlocksOk v.sbi := hv ▸ (getFreeInode_spec w.sbi).1.blocksOk blocks
  have hfree : (getFreeBlock (v.cache (getFreeInode w.sbi).1 node).sbi).1 ≠ 0 :=
    Nat.ne_of_gt (getFreeBlock_taken hblocks (by rw [hv, hcount]; exact hpos)).pos
  unfold ouichefsNewInode
  rw [if_neg type, if_neg (by omega)]
  simp only [if_neg hino, ← hv, hget, if_neg hfree]
  exact ⟨_, _, _, rfl, modify_self _ (if_pos rfl)⟩

/-- What `ouichefs_create` returns if every read succeeds. -/
def createOutcome (w : World) (d : Inode) (name : List Byte) (mode : Nat) : Int :=
  if name.length > filenameLen then -errNametoolong
  else if nrEntries (w.disk d.indexBlock) = maxSubfiles then -errMlink
  else if sIsdir mode = false ∧ sIsreg mode = false then -errInval
  else if Room w.sbi then 0 else -errNospc

theorem create_returns (h : VolumeInv w t) (counted : OneTooMany w.sbi) (parent : LiveDir w dir d)
    (mem : who.memory = true) (reads : io.NoReadFails) (name : List Byte) (mode : Nat) :
    ∃ w', ouichefsCreate w who io dir name mode = some (w', createOutcome w d name mode) := by
  obtain ⟨_, _, es, hes, _⟩ := h.directory parent
  have hlast : fileInode (w.disk d.indexBlock) (maxSubfiles - 1) ≠ 0 ↔
      nrEntries (w.disk d.indexBlock) = maxSubfiles := by
    have hle := hes.length_le
    rw [nrEntries_eq hes, ne_eq, hes.inode_eq_zero_iff (by decide)]
    unfold maxSubfiles at hle ⊢
    omega
  unfold ouichefsCreate createOutcome
  rw [(live_eq_some.mp parent.live).2, Option.bind_some]
  by_cases hlen : name.length > filenameLen
  · rw [if_pos hlen, if_pos hlen]
    exact ⟨_, rfl⟩
  rw [if_neg hlen, if_neg hlen, if_neg (by rw [reads 0]; simp)]
  by_cases hfull : nrEntries (w.disk d.indexBlock) = maxSubfiles
  · rw [if_pos (hlast.mpr hfull), if_pos hfull]
    exact ⟨_, rfl⟩
  rw [if_neg fun h => hfull (hlast.mp h), if_neg hfull]
  by_cases htype : sIsdir mode = false ∧ sIsreg mode = false
  · have hnew : ouichefsNewInode w who io d mode = (w, .error (-errInval)) := if_pos htype
    rw [if_pos htype, hnew]
    exact ⟨_, rfl⟩
  rw [if_neg htype]
  by_cases hroom : Room w.sbi
  · obtain ⟨v, ino, node, hnew, hc⟩ := newInode_room counted h.world.blocks htype
      hroom mem reads
    rw [if_pos hroom, hnew]
    simp only [hc, Option.bind_some]
    rw [if_neg (by rw [reads 2]; simp)]
    exact ⟨_, rfl⟩
  · obtain ⟨v, hv⟩ : ∃ v, ouichefsNewInode w who io d mode = (v, .error (-errNospc)) :=
      ⟨_, Prod.ext rfl (newInode_full h.world.blocks htype hroom)⟩
    rw [if_neg hroom, hv]
    exact ⟨_, rfl⟩

end

/-! ## Renaming and removal -/

section

variable {w : World} {t : Tree Nat (List Byte)} {io : Io}

instance (name : List Byte) : Decidable (NameOk name) :=
  decidable_of_iff (0 < name.length ∧ name.length < filenameLen ∧ 0 ∉ name)
    ⟨fun h => ⟨h.1, h.2.1, h.2.2⟩, fun h => ⟨h.pos, h.lt, h.nonzero⟩⟩

/-- Something has the name in the directory. -/
def taken (w : World) (dir : Nat) (name : List Byte) : Bool :=
  if ok : NameOk name then ((view w).entry dir ⟨name, ok⟩).isSome else false

/-- What `ouichefs_rename` returns if every read succeeds. -/
def renameOutcome (w : World) (ciNew : Inode) (oldDir newDir : Nat) (newName : List Byte)
    (flags : Nat) : Int :=
  if flags &&& (renameExchange ||| renameWhiteout) ≠ 0 then -errInval
  else if newName.length > filenameLen then -errNametoolong
  else if taken w newDir newName then -errExist
  else if oldDir ≠ newDir ∧ nrEntries (w.disk ciNew.indexBlock) = maxSubfiles then -errMlink
  else 0

theorem taken_iff (h : VolumeInv w t) {dir : Nat} {name : List Byte} :
    taken w dir name ↔ name ∈ t.names dir := by
  unfold taken
  by_cases ok : NameOk name
  · rw [dif_pos ok, view_entry h]
    change (t.find dir name).isSome ↔ _
    rw [Option.isSome_iff_ne_none, ne_eq, not_iff_comm]
    exact follow_eq_none.symm
  · rw [dif_neg ok]
    exact ⟨fun hfalse => absurd hfalse (by simp), fun hmem => absurd (h.names dir name hmem) ok⟩

theorem rename_returns (h : VolumeInv w t) {oldDir newDir src flags : Nat} {ciOld ciNew : Inode}
    {oldName : Name} {newName : List Byte} (old : LiveDir w oldDir ciOld)
    (new : LiveDir w newDir ciNew) (found : (view w).entry oldDir oldName = some src)
    (room : oldDir ≠ newDir → nrEntries (w.disk ciOld.indexBlock) < maxSubfiles)
    (named : newName ≠ []) (nonzero : 0 ∉ newName) (reads : io.NoReadFails) : ∃ w',
    ouichefsRename w io oldDir oldName.1 newDir newName src flags =
      some (w', renameOutcome w ciNew oldDir newDir newName flags) := by
  rw [view_entry h] at found
  obtain ⟨_, _, es, hes, _⟩ := h.directory old
  obtain ⟨_, _, es', hes', hlinks'⟩ := h.directory new
  obtain ⟨inode, hsrc, _⟩ := h.target (List.mem_map_of_mem (f := Prod.fst) (h.found found))
  have hlookup := (h.lookup_eq old oldName.2).trans found
  unfold ouichefsRename renameOutcome
  rw [(live_eq_some.mp old.live).2, Option.bind_some, (live_eq_some.mp new.live).2, Option.bind_some,
    (live_eq_some.mp hsrc).2, Option.bind_some]
  by_cases hflags : flags &&& (renameExchange ||| renameWhiteout) ≠ 0
  · rw [if_pos hflags, if_pos hflags]
    exact ⟨_, rfl⟩
  rw [if_neg hflags, if_neg hflags]
  by_cases hlen : newName.length > filenameLen
  · rw [if_pos hlen, if_pos hlen]
    exact ⟨_, rfl⟩
  rw [if_neg hlen, if_neg hlen, if_neg (by rw [reads 0]; simp)]
  simp only
  cases hscan : renameScan (w.disk ciNew.indexBlock) (newDir = oldDir) oldName.1 newName
      maxSubfiles 0 none none with
  | none =>
    have hsome : taken w newDir newName := by
      obtain ⟨j, _, hj, heq⟩ := (renameScan_none_iff _ _ _ _).mp hscan
      have hname := (strncmp_name_iff (Nat.not_lt.mp hlen) nonzero _ _).mp heq
      rcases Nat.lt_or_ge j es'.length with hlt | hge
      · rw [taken_iff h, names_eq hlinks', ← hname]
        exact List.mem_map_of_mem (List.mem_of_getElem? (hes'.slots j hlt))
      · -- an unused slot has no name
        rw [hes'.nameOf_rest hge (by omega)] at hname
        exact absurd hname.symm named
    rw [if_pos hsome]
    exact ⟨_, rfl⟩
  | some q =>
    obtain ⟨fPos, newPos⟩ := q
    have hscanned := rename_scanned hes' oldName.2 (Nat.not_lt.mp hlen) nonzero hscan
    have hnone : ¬ taken w newDir newName = true := by
      rw [taken_iff h, names_eq hlinks']
      exact hscanned.fresh
    rw [if_neg hnone]
    simp only
    by_cases hsame : oldDir = newDir
    · rw [if_pos hsame, if_neg fun h => h.1 hsame]
      cases fPos with
      | some j => exact ⟨_, rfl⟩
      | none =>
        subst hsame
        obtain rfl : ciNew = ciOld := Option.some.inj (new.live.symm.trans old.live)
        obtain ⟨j, g, hg, hname, _⟩ := (lookup_lookedUp hes' oldName.2).found src hlookup
        exact absurd (List.mem_map.mpr ⟨g, List.mem_of_getElem? hg, hname⟩)
          (hscanned.missing (by simp) rfl)
    · rw [if_neg hsame]
      have hnewPos := hscanned.newPos
      by_cases hlt : es'.length < maxSubfiles
      · rw [if_pos hlt] at hnewPos
        obtain rfl : newPos = some es'.length := hnewPos
        obtain ⟨fId, f, hfind, _, _⟩ := findSub_of_lookup hes oldName.2 hlookup
        have happart : ciOld.indexBlock ≠ ciNew.indexBlock := fun heq =>
          hsame (WorldInv.apart h.world old.live new.live heq)
        have hroom := room hsame
        rw [nrEntries_eq hes] at hroom
        have hblock : ∀ b m g, ((w.setBlock ciNew.indexBlock b).modify m g).disk ciOld.indexBlock =
            w.disk ciOld.indexBlock := fun b m g => set_of_ne _ _ happart
        have hfull : ¬ (oldDir ≠ newDir ∧ nrEntries (w.disk ciNew.indexBlock) = maxSubfiles) := by
          rw [nrEntries_eq hes']
          exact fun h => Nat.ne_of_lt hlt h.2
        simp only [reads 1, Bool.true_eq_false, if_false, hblock, hfind,
          if_neg (Nat.ne_of_lt hroom), if_neg hfull]
        exact ⟨_, rfl⟩
      · rw [if_neg hlt] at hnewPos
        obtain rfl : newPos = none := hnewPos
        have hle := hes'.length_le
        rw [if_pos ⟨hsame, by rw [nrEntries_eq hes']; omega⟩]
        exact ⟨_, rfl⟩

/-- An entry that is found can be removed. -/
theorem unlink_returns (h : VolumeInv w t) {dir ino : Nat} {d node : Inode} {name : Name}
    (parent : LiveDir w dir d) (found : (view w).entry dir name = some ino)
    (own : live w ino = some node) (reads : io.NoReadFails) :
    ∃ w', ouichefsUnlink w io dir ino = some (w', 0) := by
  rw [view_entry h] at found
  obtain ⟨_, _, es, hes, _⟩ := h.directory parent
  have hlookup := (h.lookup_eq parent name.2).trans found
  obtain ⟨fId, f, hfind, _, _⟩ := findSub_of_lookup hes name.2 hlookup
  unfold ouichefsUnlink
  rw [(live_eq_some.mp parent.live).2, Option.bind_some, (live_eq_some.mp own).2, Option.bind_some,
    if_neg (by rw [reads 0]; simp), hfind]
  exact ⟨_, rfl⟩

/-- A directory is removed exactly if nothing has a name in it. -/
theorem rmdir_returns (h : VolumeInv w t) {dir ino : Nat} {d node : Inode} {name : Name}
    (parent : LiveDir w dir d) (found : (view w).entry dir name = some ino)
    (own : LiveDir w ino node) (reads : io.NoReadFails) : ∃ w' ret,
    ouichefsRmdir w io dir ino = some (w', ret) ∧
      (((∃ m, (view w).entry ino m ≠ none) ∧ ret = -errNotempty) ∨
        ((∀ m, (view w).entry ino m = none) ∧ ret = 0)) := by
  obtain ⟨_, hnlink, es, hes, hlinks⟩ := h.directory own
  have hnamed : ∀ p ∈ t.links ino, ∃ m, (view w).entry ino m ≠ none := by
    intro p hp
    refine ⟨⟨p.2, h.names ino p.2 (List.mem_map_of_mem hp)⟩, ?_⟩
    rw [view_entry h]
    exact fun hnone => follow_eq_none.mp hnone (List.mem_map_of_mem hp)
  have hfirst := hes.inode_eq_zero_iff (show 0 < maxSubfiles by decide)
  cases hl : t.links ino with
  | cons p l =>
    obtain ⟨m, hm⟩ := hnamed p (by rw [hl]; exact List.mem_cons_self)
    have hused : fileInode (w.disk node.indexBlock) 0 ≠ 0 := by
      rw [ne_eq, hfirst]
      rw [hlinks] at hl
      cases es with
      | nil => cases hl
      | cons e es => simp
    unfold ouichefsRmdir
    rw [(live_eq_some.mp own.live).2, Option.bind_some]
    by_cases hgt : node.iNlink > 2
    · rw [if_pos hgt]
      exact ⟨_, _, rfl, Or.inl ⟨⟨m, hm⟩, rfl⟩⟩
    · rw [if_neg hgt, if_neg (by rw [reads 0]; simp), if_pos hused]
      exact ⟨_, _, rfl, Or.inl ⟨⟨m, hm⟩, rfl⟩⟩
  | nil =>
    have hnil : es = [] := by
      rw [hlinks] at hl
      exact List.map_eq_nil_iff.mp hl
    have hsub : t.subfolders ino = 0 := by
      unfold Tree.subfolders Tree.targets
      rw [hl]
      rfl
    have hnone : fileInode (w.disk node.indexBlock) 0 = 0 := hfirst.mpr (by rw [hnil]; simp)
    obtain ⟨w', hrun⟩ := @unlink_returns w t { io with bread := fun n => io.bread (n + 1) } h dir ino
      d node name parent found own.live fun n => reads (n + 1)
    refine ⟨w', 0, ?_, Or.inr ⟨fun m => ?_, rfl⟩⟩
    · unfold ouichefsRmdir
      rw [(live_eq_some.mp own.live).2, Option.bind_some, if_neg (by omega),
        if_neg (by rw [reads 0]; simp), if_neg (not_not.mpr hnone)]
      exact hrun
    · rw [view_entry h]
      unfold Tree.find
      rw [hl]
      rfl

end

/-- `ouichefs_create` and `ouichefs_mkdir` always return, and succeed exactly if the
name is short enough, the directory has an unused slot, the type is supported, and
there is a free inode and a free block. -/
theorem create_outcome (ok : Nat → Bool) (stSize : Nat) (disk image : Store) (who who' : Caller)
    (readable : Nat → Bool) (memory : Fin 4 → Bool) (w₀ w : World) (dirty : Nat → Bool)
    (calls : List (Call Nat Name Byte)) (formatted : mkfs ok stSize disk = some image)
    (mount : ouichefsFillSuper image who readable memory = .ok w₀)
    (small : stSize / 4096 ≤ 524288) (run : Loop.Run FsStep (clean w₀) calls ⟨w, dirty⟩)
    (io : Io) (dir : Nat) (d : Inode) (name : List Byte) (mode : Nat) (parent : LiveDir w dir d)
    (mem : who'.memory = true) (reads : io.NoReadFails) :
    ∃ w', ouichefsCreate w who' io dir name mode = some (w', createOutcome w d name mode) := by
  obtain ⟨⟨⟨t, h⟩, counted, _⟩, _⟩ := run_session (formatted_session formatted mount small) run
  exact create_returns h counted parent mem reads name mode

/-- Beside a file of three bytes a second one is made, but no symbolic link. -/
theorem create_outcome_second : ∃ w d w' w'', live w 2 ≠ none ∧ LiveDir w 1 d ∧
    ouichefsCreate w ⟨0, 0, true⟩ calmIo 1 [98] 0o100644 = some (w', 0) ∧
    ouichefsCreate w ⟨0, 0, true⟩ calmIo 1 [98] 0o120777 = some (w'', -errInval) := by
  have hsample : (sampleFile.bind fun p => (live p.2 1).map fun d => sIsdir d.iMode &&
      decide (createOutcome p.2 d [98] 0o100644 = 0) &&
      decide (createOutcome p.2 d [98] 0o120777 = -errInval)) = some true := by
    decide +kernel
  obtain ⟨image, w₀, w, dirty, node, himage, hw₀, hrun, hfile, hlive, _⟩ := sampleFile_run
  rw [hfile, Option.bind_some] at hsample
  obtain ⟨d, hd, hall⟩ := Option.map_eq_some_iff.mp hsample
  simp only [Bool.and_eq_true, decide_eq_true_eq] at hall
  obtain ⟨⟨hdir, hmade⟩, hrefused⟩ := hall
  have hcalls := hrun.mono fun _ _ _ h => h.1
  obtain ⟨w', hw'⟩ := create_outcome _ _ _ _ _ ⟨0, 0, true⟩ _ _ _ _ _ _ himage hw₀ (by decide)
    hcalls calmIo 1 d [98] 0o100644 ⟨hd, hdir⟩ rfl (fun _ => rfl)
  obtain ⟨w'', hw''⟩ := create_outcome _ _ _ _ _ ⟨0, 0, true⟩ _ _ _ _ _ _ himage hw₀ (by decide)
    hcalls calmIo 1 d [98] 0o120777 ⟨hd, hdir⟩ rfl (fun _ => rfl)
  rw [hmade] at hw'
  rw [hrefused] at hw''
  exact ⟨w, d, w', w'', by rw [hlive]; simp, ⟨hd, hdir⟩, hw', hw''⟩

/-- `ouichefs_rename` of a name that is there always returns, and is refused only for
flags, for a new name that is too long or taken, or for a full new directory. -/
theorem rename_outcome (ok : Nat → Bool) (stSize : Nat) (disk image : Store) (who : Caller)
    (readable : Nat → Bool) (memory : Fin 4 → Bool) (w₀ w : World) (dirty : Nat → Bool)
    (calls : List (Call Nat Name Byte)) (formatted : mkfs ok stSize disk = some image)
    (mount : ouichefsFillSuper image who readable memory = .ok w₀)
    (small : stSize / 4096 ≤ 524288) (run : Loop.Run FsStep (clean w₀) calls ⟨w, dirty⟩)
    (io : Io) (oldDir newDir src flags : Nat) (ciOld ciNew : Inode) (oldName : Name)
    (newName : List Byte)
    (old : LiveDir w oldDir ciOld) (new : LiveDir w newDir ciNew)
    (found : (view w).entry oldDir oldName = some src)
    (room : oldDir ≠ newDir → nrEntries (w.disk ciOld.indexBlock) < maxSubfiles)
    (named : newName ≠ []) (nonzero : 0 ∉ newName) (reads : io.NoReadFails) :
    ∃ w', ouichefsRename w io oldDir oldName.1 newDir newName src flags =
      some (w', renameOutcome w ciNew oldDir newDir newName flags) := by
  obtain ⟨⟨⟨t, h⟩, _⟩, _⟩ := run_session (formatted_session formatted mount small) run
  exact rename_returns h old new found room named nonzero reads

/-- A name of 28 bytes is accepted. -/
theorem rename_outcome_long : ∃ w w', live w 2 ≠ none ∧
    ouichefsRename w calmIo 1 nameA.1 1 (List.replicate 28 98) 2 0 = some (w', 0) := by
  have hsample : (sampleRun.bind fun p => (live p.2 1).map fun d =>
      decide (renameOutcome p.2 d 1 1 (List.replicate 28 98) 0 = 0)) = some true := by
    decide +kernel
  obtain ⟨p, hp, hsample⟩ := Option.bind_eq_some_iff.mp hsample
  obtain ⟨d', hd', houtcome⟩ := Option.map_eq_some_iff.mp hsample
  obtain ⟨image, d, _, himage, hw₀, hcreate, hdir, hfound, hlive, _⟩ := sampleRun_step hp
  obtain rfl := Option.some.inj (hd'.symm.trans hdir.live)
  obtain ⟨⟨⟨t, h⟩, _⟩, _⟩ := run_session (formatted_session himage hw₀ (by decide))
    (.single hcreate)
  have hentry := (view_entry h 1 nameA).trans ((h.lookup_eq hdir nameA.2).symm.trans hfound)
  obtain ⟨w', hrun⟩ := rename_outcome _ _ _ _ _ _ _ _ _ _ _ himage hw₀ (by decide) (.single hcreate)
    calmIo 1 1 2 0 d' d' nameA (List.replicate 28 98) hdir hdir hentry (fun hne => absurd rfl hne)
    (by decide) (by decide) (fun _ => rfl)
  rw [of_decide_eq_true houtcome] at hrun
  exact ⟨p.2, w', by rw [hlive]; simp, hrun⟩

/-- Every entry that is found can be removed, a directory exactly if nothing has a name
in it. -/
theorem removal_outcome (ok : Nat → Bool) (stSize : Nat) (disk image : Store) (who : Caller)
    (readable : Nat → Bool) (memory : Fin 4 → Bool) (w₀ w : World) (dirty : Nat → Bool)
    (calls : List (Call Nat Name Byte)) (formatted : mkfs ok stSize disk = some image)
    (mount : ouichefsFillSuper image who readable memory = .ok w₀)
    (small : stSize / 4096 ≤ 524288) (run : Loop.Run FsStep (clean w₀) calls ⟨w, dirty⟩)
    (io : Io) (dir ino : Nat) (d node : Inode) (name : Name) (parent : LiveDir w dir d)
    (found : (view w).entry dir name = some ino) (own : live w ino = some node)
    (reads : io.NoReadFails) :
    (sIsreg node.iMode = true → ∃ w', ouichefsUnlink w io dir ino = some (w', 0)) ∧
      (sIsdir node.iMode = true → ∃ w' ret, ouichefsRmdir w io dir ino = some (w', ret) ∧
        (((∃ m, (view w).entry ino m ≠ none) ∧ ret = -errNotempty) ∨
          ((∀ m, (view w).entry ino m = none) ∧ ret = 0))) := by
  obtain ⟨⟨⟨t, h⟩, _⟩, _⟩ := run_session (formatted_session formatted mount small) run
  constructor
  · exact fun _ => unlink_returns h parent found own reads
  · exact fun dir' => rmdir_returns h parent found ⟨own, dir'⟩ reads

def nameB : Name := ⟨[98], by decide, by decide, by decide⟩

/-- A directory with an entry is not removed, an empty one and a file are. -/
theorem removal_outcome_nested : ∃ w d sub node w' w'' w₃, LiveDir w 1 d ∧ LiveDir w 3 sub ∧
    LiveDir w 4 node ∧ ouichefsUnlink w calmIo 1 2 = some (w', 0) ∧
    ouichefsRmdir w calmIo 1 3 = some (w'', -errNotempty) ∧
    ouichefsRmdir w calmIo 3 4 = some (w₃, 0) := by
  have hsample : (sampleRun.bind fun p => (live p.2 1).bind fun d =>
      (ouichefsMkdir p.2 ⟨0, 0, true⟩ calmIo 1 nameB.1 0o755).bind fun r => (live r.1 3).bind fun sub =>
      (ouichefsMkdir r.1 ⟨0, 0, true⟩ calmIo 3 nameA.1 0o755).bind fun q => (live q.1 1).bind fun d' =>
      (live q.1 2).bind fun file => (live q.1 3).bind fun sub' => (live q.1 4).map fun node =>
        sIsdir d.iMode && sIsdir sub.iMode && sIsdir d'.iMode && sIsreg file.iMode &&
        sIsdir sub'.iMode && sIsdir node.iMode &&
        decide (lookupLoop (p.2.disk d.indexBlock) nameB.1 maxSubfiles 0 = none) &&
        decide (lookupLoop (r.1.disk sub.indexBlock) nameA.1 maxSubfiles 0 = none) &&
        decide (lookupLoop (q.1.disk d'.indexBlock) nameA.1 maxSubfiles 0 = some 2) &&
        decide (lookupLoop (q.1.disk d'.indexBlock) nameB.1 maxSubfiles 0 = some 3) &&
        decide (lookupLoop (q.1.disk sub'.indexBlock) nameA.1 maxSubfiles 0 = some 4) &&
        decide (fileInode (q.1.disk node.indexBlock) 0 = 0)) = some true := by
    decide +kernel
  obtain ⟨p, hp, hsample⟩ := Option.bind_eq_some_iff.mp hsample
  obtain ⟨d, hd, hsample⟩ := Option.bind_eq_some_iff.mp hsample
  obtain ⟨r, hr, hsample⟩ := Option.bind_eq_some_iff.mp hsample
  obtain ⟨sub, hsub, hsample⟩ := Option.bind_eq_some_iff.mp hsample
  obtain ⟨q, hq, hsample⟩ := Option.bind_eq_some_iff.mp hsample
  obtain ⟨d', hd', hsample⟩ := Option.bind_eq_some_iff.mp hsample
  obtain ⟨file, hfile, hsample⟩ := Option.bind_eq_some_iff.mp hsample
  obtain ⟨sub', hsub', hsample⟩ := Option.bind_eq_some_iff.mp hsample
  obtain ⟨node, hnode, hall⟩ := Option.map_eq_some_iff.mp hsample
  simp only [Bool.and_eq_true, decide_eq_true_eq] at hall
  obtain ⟨⟨⟨⟨⟨⟨⟨⟨⟨⟨⟨hdir, hsdir⟩, hdir'⟩, hreg⟩, hsdir'⟩, hndir⟩, hfree⟩, hfree'⟩, hfoundA⟩,
    hfoundB⟩, hfoundC⟩, hempty⟩ := hall
  obtain ⟨image, _, _, himage, hw₀, hcreate, _⟩ := sampleRun_step hp
  have hmkdir := fun dirty => FsStep.mkdir p.2 dirty _ calmIo 1 d nameB _ r ⟨hd, hdir⟩ hfree
    (fun _ => rfl) hr
  have hmkdir' := fun dirty => FsStep.mkdir r.1 dirty _ calmIo 3 sub nameA _ q ⟨hsub, hsdir⟩ hfree'
    (fun _ => rfl) hq
  have hcalls := Loop.Run.cons hcreate (.cons (hmkdir _) (.single (hmkdir' _)))
  obtain ⟨⟨⟨t, h⟩, _⟩, _⟩ := run_session (formatted_session himage hw₀ (by decide)) hcalls
  have hentry : ∀ {dir i : Nat} {e : Inode} {m : Name}, LiveDir q.1 dir e →
      lookupLoop (q.1.disk e.indexBlock) m.1 maxSubfiles 0 = some i →
      (view q.1).entry dir m = some i := by
    intro dir i e m own found
    exact (view_entry h dir m).trans ((h.lookup_eq own m.2).symm.trans found)
  have hnone : ∀ m, (view q.1).entry 4 m = none := by
    intro m
    rw [view_entry h, ← h.lookup_eq ⟨hnode, hndir⟩ m.2, maxSubfiles, lookupLoop, if_pos hempty]
  obtain ⟨w', hw'⟩ := (removal_outcome _ _ _ _ _ _ _ _ _ _ _ himage hw₀ (by decide) hcalls
    calmIo 1 2 d' file nameA ⟨hd', hdir'⟩ (hentry ⟨hd', hdir'⟩ hfoundA) hfile (fun _ => rfl)).1 hreg
  obtain ⟨w'', ret, hw'', hret⟩ := (removal_outcome _ _ _ _ _ _ _ _ _ _ _ himage hw₀ (by decide)
    hcalls calmIo 1 3 d' sub' nameB ⟨hd', hdir'⟩ (hentry ⟨hd', hdir'⟩ hfoundB) hsub'
    (fun _ => rfl)).2 hsdir'
  obtain ⟨w₃, ret', hw₃, hret'⟩ := (removal_outcome _ _ _ _ _ _ _ _ _ _ _ himage hw₀ (by decide)
    hcalls calmIo 3 4 sub' node nameA ⟨hsub', hsdir'⟩ (hentry ⟨hsub', hsdir'⟩ hfoundC) hnode
    (fun _ => rfl)).2 hndir
  have hused : ret = -errNotempty := by
    rcases hret with ⟨_, hret⟩ | ⟨hall, _⟩
    · exact hret
    · have hnamed := hall nameA
      rw [hentry ⟨hsub', hsdir'⟩ hfoundC] at hnamed
      cases hnamed
  have hdone : ret' = 0 := by
    rcases hret' with ⟨⟨m, hm⟩, _⟩ | ⟨_, hret'⟩
    · exact absurd (hnone m) hm
    · exact hret'
  subst hused hdone
  exact ⟨q.1, d', sub', node, w', w'', w₃, ⟨hd', hdir'⟩, ⟨hsub', hsdir'⟩, ⟨hnode, hndir⟩, hw', hw'', hw₃⟩

end Progress
