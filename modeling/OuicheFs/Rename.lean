import OuicheFs.Directory

/-!
# Moving an entry to another directory

`ouichefs_rename` scans the new directory, stores the new entry there, and only
then reads the old directory and takes the entry out. The scan goes over all
slots; the search in the old directory has no bound of its own and ends at the
first unused slot.
-/
namespace Rename

open CInt ByteBuffer FileContext OuicheInode OuicheDir Directory

section

variable {dblock : Buffer} {same : Bool} {oldName newName : List Byte}

/-- The scan breaks off at a slot with the new name, used or not. -/
theorem renameScan_none_iff (n : Nat) : ∀ (i : Nat) (fPos newPos : Option Nat),
    renameScan dblock same oldName newName n i fPos newPos = none ↔
      ∃ j, i ≤ j ∧ j < i + n ∧ strncmp filenameLen (fileName dblock j) (cString newName) = 0 := by
  induction n with
  | zero =>
    intro i fPos newPos
    constructor
    · rintro ⟨⟩
    · rintro ⟨j, hij, hj, -⟩
      omega
  | succ n ih =>
    intro i fPos newPos
    rw [renameScan]
    simp only
    by_cases hname : strncmp filenameLen (fileName dblock i) (cString newName) = 0
    · rw [if_pos hname]
      exact ⟨fun _ => ⟨i, Nat.le_refl i, by omega, hname⟩, fun _ => rfl⟩
    · rw [if_neg hname, ih]
      constructor
      · rintro ⟨j, hij, hj, heq⟩
        exact ⟨j, by omega, by omega, heq⟩
      · rintro ⟨j, hij, hj, heq⟩
        have hne : j ≠ i := by
          rintro rfl
          exact hname heq
        exact ⟨j, by omega, by omega, heq⟩

theorem renameScan_fresh {r : Option Nat × Option Nat}
    (run : renameScan dblock same oldName newName maxSubfiles 0 none none = some r) {i : Nat}
    (lt : i < maxSubfiles) : strncmp filenameLen (fileName dblock i) (cString newName) ≠ 0 := by
  intro heq
  rw [(renameScan_none_iff _ _ _ _).mpr ⟨i, Nat.zero_le i, by omega, heq⟩] at run
  cases run

theorem renameScan_goes (fresh : ∀ i, i < maxSubfiles →
      strncmp filenameLen (fileName dblock i) (cString newName) ≠ 0) :
    ∃ fPos newPos, renameScan dblock same oldName newName maxSubfiles 0 none none =
      some (fPos, newPos) := by
  cases hscan : renameScan dblock same oldName newName maxSubfiles 0 none none with
  | none =>
    obtain ⟨j, _, hj, heq⟩ := (renameScan_none_iff _ _ _ _).mp hscan
    exact absurd heq (fresh j (by omega))
  | some r => exact ⟨r.1, r.2, rfl⟩

/-- A scan that goes through remembers the first unused slot. -/
theorem renameScan_newPos (n : Nat) : ∀ (i : Nat) (fPos newPos : Option Nat)
    (r : Option Nat × Option Nat),
    renameScan dblock same oldName newName n i fPos newPos = some r →
      r.2 = newPos.or ((List.range' i n).find? (fun j => fileInode dblock j = 0)) := by
  induction n with
  | zero =>
    intro i fPos newPos r run
    cases run
    simp
  | succ n ih =>
    intro i fPos newPos r run
    rw [renameScan] at run
    simp only at run
    split at run
    · cases run
    rw [ih (i + 1) _ _ r run, List.range'_succ]
    cases newPos with
    | some p => simp
    | none =>
      by_cases hz : fileInode dblock i = 0
      · rw [if_pos ⟨rfl, hz⟩, List.find?_cons_of_pos (by simpa using hz)]
        simp
      · rw [if_neg (fun h => hz h.2), List.find?_cons_of_neg (by simpa using hz)]

/-- The slot that a scan of the whole block remembers is unused. -/
theorem newPos_unused {r : Option Nat × Option Nat} {p : Nat}
    (run : renameScan dblock same oldName newName maxSubfiles 0 none none = some r)
    (pos : r.2 = some p) : p < maxSubfiles ∧ fileInode dblock p = 0 := by
  rw [renameScan_newPos _ _ _ _ _ run, Option.none_or] at pos
  have hmem := List.mem_of_find?_eq_some pos
  rw [List.mem_range'_1] at hmem
  exact ⟨by omega, by simpa using List.find?_some pos⟩

/-- A scan of the whole block remembers no slot if all of them are used. -/
theorem newPos_none_iff {r : Option Nat × Option Nat}
    (run : renameScan dblock same oldName newName maxSubfiles 0 none none = some r) :
    r.2 = none ↔ ∀ i, i < maxSubfiles → fileInode dblock i ≠ 0 := by
  rw [renameScan_newPos _ _ _ _ _ run, Option.none_or, List.find?_eq_none]
  constructor
  · intro h i hi
    simpa using h i (List.mem_range'_1.mpr ⟨Nat.zero_le i, by omega⟩)
  · intro h i hi
    rw [List.mem_range'_1] at hi
    simpa using h i (by omega)

/-- In a packed block that is the slot behind the entries. -/
theorem newPos_packed {es : List DirFile} {r : Option Nat × Option Nat} (h : Packed dblock es)
    (room : es.length < maxSubfiles)
    (run : renameScan dblock same oldName newName maxSubfiles 0 none none = some r) :
    r.2 = some es.length := by
  rw [renameScan_newPos _ _ _ _ _ run, Option.none_or, List.find?_range'_eq_some]
  refine ⟨by simpa using h.inode_eq_zero (Nat.le_refl _) room,
    List.mem_range'_1.mpr ⟨Nat.zero_le _, by omega⟩, ?_⟩
  intro j _ hj
  simpa using h.inode_ne_zero hj

end

/-- The slots that the search of the old directory reads. Behind a slot in use it
goes on to the next one, inside the block or not. -/
inductive SearchReads (dblock : Buffer) (ino : Nat) : Nat → Prop
  | first : SearchReads dblock ino 0
  | next {i : Nat} : SearchReads dblock ino i →
      fileInode dblock i = ino ∨ fileInode dblock i ≠ 0 → SearchReads dblock ino (i + 1)

section

variable {dblock : Buffer} {es : List DirFile} {ino : Nat}

/-- A packed block is read up to the first unused slot. -/
theorem SearchReads.le_length (h : Packed dblock es) (room : es.length < maxSubfiles)
    (ne : ino ≠ 0) {i : Nat} (reads : SearchReads dblock ino i) : i ≤ es.length := by
  induction reads with
  | first => exact Nat.zero_le _
  | @next i _ hused ih =>
    by_contra hgt
    have hzero := h.inode_eq_zero (show es.length ≤ i by omega) (by omega)
    rcases hused with heq | hne
    · exact ne (heq.symm.trans hzero)
    · exact hne hzero

theorem searchReads_of_le (h : Packed dblock es) (ino i : Nat) (le : i ≤ es.length) :
    SearchReads dblock ino i := by
  induction i with
  | zero => exact .first
  | succ i ih => exact .next (ih (by omega)) (Or.inr (h.inode_ne_zero le))

theorem SearchReads.used {k : Nat} (reads : SearchReads dblock ino k) :
    ∀ i, i < k → fileInode dblock i = ino ∨ fileInode dblock i ≠ 0 := by
  induction reads with
  | first => exact fun i hi => absurd hi (Nat.not_lt_zero i)
  | @next k _ hused ih =>
    intro i hi
    by_cases hik : i = k
    · rw [hik]
      exact hused
    · exact ih i (by omega)

/-- Among the slots of a block the search reads those up to the one where
`findSubLoop` ends, and what it finds lies in front of that one. -/
theorem findSubLoop_reads (n : Nat) : ∀ (i : Nat) (fId : Option Nat), SearchReads dblock ino i →
    i ≤ (findSubLoop dblock ino n i fId).2 ∧
      (∀ k, i ≤ k → k ≤ i + n → (SearchReads dblock ino k ↔
        k ≤ (findSubLoop dblock ino n i fId).2)) ∧
      ∀ f, (findSubLoop dblock ino n i fId).1 = some f →
        fId = some f ∨ f < (findSubLoop dblock ino n i fId).2 := by
  induction n with
  | zero =>
    intro i fId reads
    refine ⟨Nat.le_refl i, fun k hge hle => ?_, fun f hf => Or.inl hf⟩
    obtain rfl : k = i := by omega
    exact iff_of_true reads (Nat.le_refl k)
  | succ n ih =>
    intro i fId reads
    have hgo : ∀ fId', fileInode dblock i = ino ∨ fileInode dblock i ≠ 0 →
        i ≤ (findSubLoop dblock ino n (i + 1) fId').2 ∧
          (∀ k, i ≤ k → k ≤ i + (n + 1) → (SearchReads dblock ino k ↔
            k ≤ (findSubLoop dblock ino n (i + 1) fId').2)) ∧
          ∀ f, (findSubLoop dblock ino n (i + 1) fId').1 = some f →
            fId' = some f ∨ f < (findSubLoop dblock ino n (i + 1) fId').2 := by
      intro fId' hused
      obtain ⟨hcount, hreads, hfound⟩ := ih (i + 1) fId' (.next reads hused)
      refine ⟨by omega, fun k hge hle => ?_, hfound⟩
      by_cases hki : k = i
      · subst hki
        exact iff_of_true reads (by omega)
      · exact hreads k (by omega) (by omega)
    rw [findSubLoop]
    by_cases hino : fileInode dblock i = ino
    · rw [if_pos hino]
      obtain ⟨hcount, hreads, hfound⟩ := hgo (some i) (Or.inl hino)
      refine ⟨hcount, hreads, fun f hf => Or.inr ?_⟩
      have hnext := (ih (i + 1) (some i) (.next reads (Or.inl hino))).1
      rcases hfound f hf with heq | hlt
      · rw [← Option.some.inj heq]
        omega
      · exact hlt
    rw [if_neg hino]
    by_cases hzero : fileInode dblock i = 0
    · rw [if_pos hzero]
      refine ⟨Nat.le_refl i, fun k hge hle => ⟨fun hk => ?_, fun hk => ?_⟩, fun f hf => Or.inl hf⟩
      · by_contra hgt
        rcases hk.used i (by omega) with heq | hne
        · exact hino heq
        · exact hne hzero
      · obtain rfl : k = i := Nat.le_antisymm hk hge
        exact reads
    · rw [if_neg hzero]
      exact hgo fId (Or.inr hzero)

/-- The search finds the only entry with the number. -/
theorem findSub_once {xs ys : List DirFile} {e : DirFile} (h : Packed dblock (xs ++ e :: ys))
    (source : e.inode = ino) (others : ∀ f ∈ xs ++ ys, f.inode ≠ ino) :
    findSubLoop dblock ino maxSubfiles 0 none = (some xs.length, (xs ++ e :: ys).length) := by
  have hne : ino ≠ 0 := by
    rw [← source]
    exact h.used e (by simp)
  have hfound := findSub_found h hne
  obtain ⟨⟨slot, count⟩, hr⟩ : ∃ r, r = findSubLoop dblock ino maxSubfiles 0 none := ⟨_, rfl⟩
  rw [← hr] at hfound ⊢
  obtain rfl : count = (xs ++ e :: ys).length := hfound.count
  cases slot with
  | none => exact absurd source (hfound.missing rfl e (by simp))
  | some j =>
    obtain ⟨f, hj, hf⟩ := hfound.slot j rfl
    have hlen : j = xs.length := by
      by_contra hj'
      refine others f ?_ hf
      rcases Nat.lt_or_ge j xs.length with hlt | hge
      · rw [List.getElem?_append_left hlt] at hj
        exact List.mem_append_left _ (List.mem_of_getElem? hj)
      · rw [List.getElem?_append_right hge,
          show j - xs.length = (j - xs.length - 1) + 1 by omega, List.getElem?_cons_succ] at hj
        exact List.mem_append_right _ (List.mem_of_getElem? hj)
    rw [hlen]

end

/-- The slots of both directory blocks that a move to another directory reads or
writes. The removal stands for a search that ended inside the block. -/
inductive Touches (old new : Buffer) (oldName newName : List Byte) (src : Nat) : Nat → Prop
  | scan {i : Nat} : i < maxSubfiles → Touches old new oldName newName src i
  | insert {fPos : Option Nat} {i : Nat} :
      renameScan new false oldName newName maxSubfiles 0 none none = some (fPos, some i) →
      Touches old new oldName newName src i
  | search {i : Nat} : SearchReads old src i → Touches old new oldName newName src i
  | remove {fId nrSubs i : Nat} : findSubLoop old src maxSubfiles 0 none = (some fId, nrSubs) →
      fId ≤ i → i < nrSubs → Touches old new oldName newName src i

/-- The inodes of a call of `ouichefs_rename`. -/
structure Inodes (w : World) (oldDir newDir src : Nat) (ciOld ciNew inode : Inode) : Prop where
  old : w.icache oldDir = some ciOld
  new : w.icache newDir = some ciNew
  source : w.icache src = some inode

/-- Two directories in order; the entry `e` of the old one is to move to the new
one, which has room for it and no entry with its new name. -/
structure Movable (w : World) (oldDir newDir src : Nat) (ciOld ciNew : Inode)
    (newName : List Byte) (xs : List DirFile) (e : DirFile) (ys es : List DirFile) : Prop where
  dirs : oldDir ≠ newDir
  blocks : ciOld.indexBlock ≠ ciNew.indexBlock
  old : Packed (w.disk ciOld.indexBlock) (xs ++ e :: ys)
  new : Packed (w.disk ciNew.indexBlock) es
  source : e.inode = src
  once : ∀ f ∈ xs ++ ys, f.inode ≠ src
  room : es.length < maxSubfiles
  fresh : newName ∉ es.map nameOf
  name : NameOk newName

/-- What a move is to leave behind. -/
structure Moved (w' : World) (ciOld ciNew : Inode) (src : Nat) (newName : List Byte)
    (xs ys es : List DirFile) : Prop where
  new : ∃ f, f.inode = src ∧ nameOf f = newName ∧ Packed (w'.disk ciNew.indexBlock) (es ++ [f])
  old : Packed (w'.disk ciOld.indexBlock) (xs ++ ys)

theorem strscpy_outside (b : Buffer) (off : Nat) (src : List Byte) {k : Nat}
    (h : k < off ∨ off + 28 ≤ k) : strscpy b off filenameLen src k = b k := by
  unfold strscpy filenameLen
  refine blit_outside b _ ?_
  omega

theorem removeSub_outside (b : Buffer) {fId nrSubs k : Nat} (lt : fId < nrSubs)
    (h : k / 32 < fId ∨ nrSubs ≤ k / 32) : removeSub b fId nrSubs k = b k := by
  unfold removeSub
  rw [fill, blit_outside _ _ (by omega)]
  split
  · exact blit_outside b _ (by omega)
  · rfl

/-- A move between directories writes to their two blocks alone, and there to slots that
it touches. -/
theorem rename_writes {w : World} {io : Io} {oldDir newDir src flags : Nat}
    {ciOld ciNew inode : Inode} {oldName newName : List Byte} {r : World × Int}
    (call : Inodes w oldDir newDir src ciOld ciNew inode) (dirs : oldDir ≠ newDir)
    (blocks : ciOld.indexBlock ≠ ciNew.indexBlock)
    (run : ouichefsRename w io oldDir oldName newDir newName src flags = some r) (b k : Nat)
    (written : r.1.disk b k ≠ w.disk b k) : (b = ciOld.indexBlock ∨ b = ciNew.indexBlock) ∧
      Touches (w.disk ciOld.indexBlock) (w.disk ciNew.indexBlock) oldName newName src (k / 32) := by
  have hsame : r.1.disk b k = w.disk b k → False := written
  unfold ouichefsRename at run
  simp only [call.old, call.new, call.source, Option.bind_some] at run
  split at run
  · cases run
    exact (hsame rfl).elim
  split at run
  · cases run
    exact (hsame rfl).elim
  split at run
  · cases run
    exact (hsame rfl).elim
  rw [decide_eq_false (fun heq => dirs heq.symm)] at run
  cases hscan : renameScan (w.disk ciNew.indexBlock) false oldName newName maxSubfiles 0 none none with
  | none =>
    rw [hscan] at run
    cases run
    exact (hsame rfl).elim
  | some found =>
    obtain ⟨fPos, newPos⟩ := found
    rw [hscan] at run
    simp only at run
    cases newPos with
    | none =>
      cases run
      exact (hsame rfl).elim
    | some p =>
      -- the new entry goes into its slot
      have hentered : ∀ u : Buffer, u = strscpy (putLe32 (w.disk ciNew.indexBlock) (32 * p)
          (BitVec.ofNat 32 src)) (32 * p + 4) filenameLen newName →
          (w.disk.set ciNew.indexBlock u) b k ≠ w.disk b k → b = ciNew.indexBlock ∧ k / 32 = p := by
        rintro u rfl hne
        by_cases hb : b = ciNew.indexBlock
        · refine ⟨hb, ?_⟩
          subst hb
          rw [set_self] at hne
          by_contra hk
          exact hne ((strscpy_outside _ _ _ (by omega)).trans (putLe32_outside _ _ (by omega)))
        · rw [set_of_ne _ _ hb] at hne
          exact absurd rfl hne
      simp only at run
      split at run
      · cases run
        obtain ⟨hb, hk⟩ := hentered _ rfl written
        exact ⟨Or.inr hb, hk ▸ .insert hscan⟩
      split at run
      · cases run
      split at run
      · cases run
      rename_i fId nrSubs hfind _
      cases run
      change (w.disk.set ciNew.indexBlock _).set ciOld.indexBlock _ b k ≠ _ at written
      have hold : (w.disk.set ciNew.indexBlock (strscpy (putLe32 (w.disk ciNew.indexBlock) (32 * p)
          (BitVec.ofNat 32 src)) (32 * p + 4) filenameLen newName)) ciOld.indexBlock =
          w.disk ciOld.indexBlock := set_of_ne _ _ blocks
      by_cases hb : b = ciOld.indexBlock
      · refine ⟨Or.inl hb, ?_⟩
        subst hb
        have hfind' : findSubLoop (w.disk ciOld.indexBlock) src maxSubfiles 0 none =
            (some fId, nrSubs) := hold ▸ hfind
        obtain ⟨_, _, hlt⟩ := findSubLoop_reads maxSubfiles 0 none
          (.first : SearchReads (w.disk ciOld.indexBlock) src 0)
        rw [hfind'] at hlt
        have hlt := (hlt fId rfl).resolve_left (by simp)
        rw [set_self] at written
        by_contra hnot
        refine written ((removeSub_outside _ hlt ?_).trans (congrFun hold k))
        by_contra hin
        exact hnot (.remove hfind' (by omega) (by omega))
      · rw [set_of_ne _ _ hb] at written
        obtain ⟨hb', hk⟩ := hentered _ rfl written
        exact ⟨Or.inr hb', hk ▸ .insert hscan⟩

/-- The entries `xs` and `ys` stay, the entry between them becomes the last one of
the other directory, and no slot outside the blocks is read or written. -/
def MovesOne (w : World) (io : Io) (oldDir : Nat) (oldName : List Byte) (newDir : Nat)
    (newName : List Byte) (src flags : Nat) (ciOld ciNew : Inode) (xs ys es : List DirFile) : Prop :=
  (∃ w', ouichefsRename w io oldDir oldName newDir newName src flags = some (w', 0) ∧
    Moved w' ciOld ciNew src newName xs ys es) ∧
  ∀ i, Touches (w.disk ciOld.indexBlock) (w.disk ciNew.indexBlock) oldName newName src i →
    i < maxSubfiles

section

variable {w : World} {oldDir newDir src flags : Nat} {ciOld ciNew inode : Inode} {io : Io}
  {oldName newName : List Byte} {xs ys es : List DirFile} {e : DirFile}

/-- The new directory has room and no entry with the name: the entry is stored there,
and then the old directory is read. -/
theorem rename_stored (call : Inodes w oldDir newDir src ciOld ciNew inode)
    (supported : flags &&& (renameExchange ||| renameWhiteout) = 0)
    (name : newName.length ≤ filenameLen) (newRead : io.bread 0 = true) {fPos : Option Nat} {p : Nat}
    (scan : renameScan (w.disk ciNew.indexBlock) (decide (newDir = oldDir)) oldName newName
      maxSubfiles 0 none none = some (fPos, some p)) (dirs : oldDir ≠ newDir) :
    ∃ u : World, u.disk = w.disk.set ciNew.indexBlock (strscpy (putLe32 (w.disk ciNew.indexBlock)
        (32 * p) (BitVec.ofNat 32 src)) (32 * p + 4) filenameLen newName) ∧
      (io.bread 1 = false →
        ouichefsRename w io oldDir oldName newDir newName src flags = some (u, -errIo)) ∧
      ∀ {fId nrSubs : Nat}, io.bread 1 = true →
        findSubLoop (u.disk ciOld.indexBlock) src maxSubfiles 0 none = (some fId, nrSubs) →
        nrSubs ≠ maxSubfiles →
        ∃ w', ouichefsRename w io oldDir oldName newDir newName src flags = some (w', 0) ∧
          w'.disk = u.disk.set ciOld.indexBlock
            (removeSub (u.disk ciOld.indexBlock) fId nrSubs) := by
  unfold ouichefsRename
  rw [call.old, call.new, call.source]
  simp only [Option.bind_some]
  rw [if_neg (not_not.mpr supported), if_neg (Nat.not_lt.mpr name), if_neg (by simp [newRead]), scan]
  simp only
  rw [if_neg dirs]
  refine ⟨_, ?_, fun hold => if_pos hold, ?_⟩
  · rfl
  · intro fId nrSubs hold hfind hroom
    rw [if_neg (by simp [hold]), hfind]
    simp only
    rw [if_neg hroom]
    exact ⟨_, rfl, rfl⟩

theorem Movable.src_range (m : Movable w oldDir newDir src ciOld ciNew newName xs e ys es) :
    0 < src ∧ src < 4294967296 := by
  have hmem : e ∈ xs ++ e :: ys := by simp
  have hne := m.old.used e hmem
  obtain ⟨i, hi, heq⟩ := List.getElem_of_mem hmem
  rw [m.old.getElem hi] at heq
  have hsrc : src = fileInode (w.disk ciOld.indexBlock) i := by
    rw [← m.source, ← heq]
    rfl
  refine ⟨?_, ?_⟩
  · rw [← m.source]
    omega
  · rw [hsrc]
    exact (le32 _ _).isLt

/-- The scan goes through: the name is neither that of an entry nor that of an
unused slot, which has none. -/
theorem Movable.scan (m : Movable w oldDir newDir src ciOld ciNew newName xs e ys es) (same : Bool)
    (oldName : List Byte) : ∃ fPos, renameScan (w.disk ciNew.indexBlock) same oldName newName
      maxSubfiles 0 none none = some (fPos, some es.length) := by
  have hfresh : ∀ i, i < maxSubfiles →
      strncmp filenameLen (fileName (w.disk ciNew.indexBlock) i) (cString newName) ≠ 0 := by
    intro i hi hname
    rw [m.name.strncmp_iff] at hname
    rcases Nat.lt_or_ge i es.length with hlt | hge
    · refine m.fresh (List.mem_map.mpr ⟨es[i], List.getElem_mem hlt, ?_⟩)
      rw [m.new.getElem hlt]
      exact hname
    · rw [m.new.nameOf_rest hge hi] at hname
      have := m.name.pos
      rw [← hname] at this
      cases this
  obtain ⟨fPos, newPos, hr⟩ := renameScan_goes hfresh
  obtain rfl : newPos = some es.length := newPos_packed m.new m.room hr
  exact ⟨fPos, hr⟩

/-- With an unused slot in the old directory the move is complete. -/
theorem Movable.moved (m : Movable w oldDir newDir src ciOld ciNew newName xs e ys es)
    (call : Inodes w oldDir newDir src ciOld ciNew inode)
    (supported : flags &&& (renameExchange ||| renameWhiteout) = 0)
    (newRead : io.bread 0 = true) (oldRead : io.bread 1 = true)
    (unfilled : (xs ++ e :: ys).length < maxSubfiles) :
    ∃ w', ouichefsRename w io oldDir oldName newDir newName src flags = some (w', 0) ∧
      Moved w' ciOld ciNew src newName xs ys es := by
  obtain ⟨fPos, hscan⟩ := m.scan (decide (newDir = oldDir)) oldName
  obtain ⟨f, hf, hname, hinsert⟩ := m.new.insert m.room m.name m.src_range.1 m.src_range.2
  have hfind := findSub_once m.old m.source m.once
  have hremove := m.old.remove (show xs.length < (xs ++ e :: ys).length by simp)
  rw [List.eraseIdx_append_of_length_le (Nat.le_refl _), Nat.sub_self, List.eraseIdx_cons_zero]
    at hremove
  obtain ⟨u, hdisk, -, hend⟩ := rename_stored call supported (Nat.le_of_lt m.name.lt) newRead hscan
    m.dirs
  have hold : u.disk ciOld.indexBlock = w.disk ciOld.indexBlock := by
    rw [hdisk, set_of_ne _ _ m.blocks]
  obtain ⟨w', hrun, hdisk'⟩ := hend oldRead (by rw [hold]; exact hfind) (by omega)
  refine ⟨w', hrun, ⟨f, hf, hname, ?_⟩, ?_⟩
  · rw [hdisk', set_of_ne _ _ (Ne.symm m.blocks), hdisk, set_self]
    exact hinsert
  · rw [hdisk', set_self, hold]
    exact hremove

/-- Every slot that a move touches is a slot of the blocks, as long as the search
in the old directory meets an unused slot. -/
theorem Movable.touches_lt (m : Movable w oldDir newDir src ciOld ciNew newName xs e ys es)
    (unfilled : (xs ++ e :: ys).length < maxSubfiles) {i : Nat}
    (t : Touches (w.disk ciOld.indexBlock) (w.disk ciNew.indexBlock) oldName newName src i) :
    i < maxSubfiles := by
  cases t with
  | scan hi => exact hi
  | insert hscan => exact (newPos_unused hscan rfl).1
  | search hreads =>
    exact Nat.lt_of_le_of_lt (hreads.le_length m.old unfilled (Nat.ne_of_gt m.src_range.1)) unfilled
  | remove hfind _ hi =>
    rw [findSub_once m.old m.source m.once] at hfind
    cases hfind
    omega

/-- A full old directory has no slot that would end the search. -/
theorem Movable.touches_outside (m : Movable w oldDir newDir src ciOld ciNew newName xs e ys es)
    (full : (xs ++ e :: ys).length = maxSubfiles) :
    Touches (w.disk ciOld.indexBlock) (w.disk ciNew.indexBlock) oldName newName src maxSubfiles :=
  .search (searchReads_of_le m.old src maxSubfiles (Nat.le_of_eq full.symm))

/-- A move to another directory is complete and stays inside the blocks if and only
if the old directory has an unused slot. -/
theorem rename_moves_one_iff (m : Movable w oldDir newDir src ciOld ciNew newName xs e ys es)
    (call : Inodes w oldDir newDir src ciOld ciNew inode)
    (supported : flags &&& (renameExchange ||| renameWhiteout) = 0) (reads : io.NoReadFails) :
    MovesOne w io oldDir oldName newDir newName src flags ciOld ciNew xs ys es ↔
      (xs ++ e :: ys).length < maxSubfiles := by
  constructor
  · rintro ⟨-, hinside⟩
    by_contra hge
    have hle := m.old.length_le
    have houtside := hinside maxSubfiles (m.touches_outside (by omega))
    exact absurd houtside (Nat.lt_irrefl _)
  · intro hlt
    exact ⟨m.moved call supported (reads 0) (reads 1) hlt, fun i => m.touches_lt hlt⟩

end

/-- A directory with `n` files, the first of them the inode 3; the name of the file
in slot `i` is an `a` and the byte `i + 1`. -/
def filesBlock (n : Nat) : Buffer := fun o =>
  if n ≤ o / 32 then 0
  else if o % 32 = 0 then BitVec.ofNat 8 (o / 32 + 3)
  else if o % 32 = 4 then 97
  else if o % 32 = 5 then BitVec.ofNat 8 (o / 32 + 1)
  else 0

def filesOf (n : Nat) : List DirFile := (List.range n).map (dirFile (filesBlock n))

theorem fileInode_filesBlock {n i : Nat} (le : n ≤ maxSubfiles) (lt : i < n) :
    fileInode (filesBlock n) i = i + 3 := by
  unfold maxSubfiles at le
  have hbyte : ∀ k, 0 < k → k < 4 → filesBlock n (32 * i + k) = 0 := by
    intro k hpos hk
    unfold filesBlock
    rw [if_neg (by omega), if_neg (by omega), if_neg (by omega), if_neg (by omega)]
  have hfirst : filesBlock n (32 * i) = BitVec.ofNat 8 (i + 3) := by
    unfold filesBlock
    rw [if_neg (by omega), if_pos (by omega), show 32 * i / 32 = i by omega]
  unfold fileInode le32
  rw [hbyte 1 (by omega) (by omega), hbyte 2 (by omega) (by omega), hbyte 3 (by omega) (by omega),
    hfirst]
  simp only [BitVec.toNat_append, BitVec.toNat_ofNat]
  simp
  omega

theorem packed_filesBlock {n : Nat} (le : n ≤ maxSubfiles) : Packed (filesBlock n) (filesOf n) := by
  have hlen : (filesOf n).length = n := by simp [filesOf]
  refine ⟨by omega, ?_, ?_, ?_⟩
  · intro i hi
    rw [hlen] at hi
    simp [filesOf, hi]
  · intro e he
    obtain ⟨i, hi, rfl⟩ := List.mem_map.mp he
    rw [List.mem_range] at hi
    have hinode : (dirFile (filesBlock n) i).inode = i + 3 := fileInode_filesBlock le hi
    omega
  · intro i hi _ k hk
    rw [hlen] at hi
    unfold filesBlock
    exact if_pos (by omega)

/-- The directories 1 and 2, the first with `n` files and the second empty. -/
def twoDirs (n : Nat) : World where
  sbi := ⟨255, 255, 5, 1, 1, 252 - n, 220 - n, fun i => decide (n + 3 ≤ i),
    fun b => decide (n + 35 ≤ b)⟩
  disk := fun b => if b = 30 then filesBlock n else fun _ => 0
  icache := fun i =>
    if i = 1 then some ⟨0o040775, 0, 0, 4096, ⟨0, 0⟩, ⟨0, 0⟩, ⟨0, 0⟩, 1, 3, 30⟩
    else if i = 2 then some ⟨0o040775, 0, 0, 4096, ⟨0, 0⟩, ⟨0, 0⟩, ⟨0, 0⟩, 1, 2, 31⟩
    else some ⟨0o100644, 0, 0, 0, ⟨0, 0⟩, ⟨0, 0⟩, ⟨0, 0⟩, 1, 1, 32 + i⟩

def firstDir : Inode := ⟨0o040775, 0, 0, 4096, ⟨0, 0⟩, ⟨0, 0⟩, ⟨0, 0⟩, 1, 3, 30⟩

def secondDir : Inode := ⟨0o040775, 0, 0, 4096, ⟨0, 0⟩, ⟨0, 0⟩, ⟨0, 0⟩, 1, 2, 31⟩

def firstFile : Inode := ⟨0o100644, 0, 0, 0, ⟨0, 0⟩, ⟨0, 0⟩, ⟨0, 0⟩, 1, 1, 35⟩

theorem twoDirs_inodes (n : Nat) : Inodes (twoDirs n) 1 2 3 firstDir secondDir firstFile :=
  ⟨rfl, rfl, rfl⟩

/-- The first file can be moved. -/
theorem twoDirs_movable {n : Nat} (pos : 0 < n) (le : n ≤ maxSubfiles) :
    Movable (twoDirs n) 1 2 3 firstDir secondDir [98] [] (dirFile (filesBlock n) 0)
      (filesOf n).tail [] := by
  have hcons : [] ++ dirFile (filesBlock n) 0 :: (filesOf n).tail = filesOf n := by
    obtain ⟨m, rfl⟩ : ∃ m, n = m + 1 := ⟨n - 1, by omega⟩
    simp [filesOf, List.range_succ_eq_map]
  refine ⟨by decide, by decide, ?_, ?_, fileInode_filesBlock le pos, ?_, by decide, by simp,
    ⟨by decide, by decide, by decide⟩⟩
  · rw [hcons]
    exact packed_filesBlock le
  · exact packed_nil (fun _ _ => rfl)
  · intro f hf
    rw [List.nil_append] at hf
    obtain ⟨i, hi, rfl⟩ := List.getElem_of_mem hf
    rw [List.length_tail] at hi
    have hlt : i + 1 < n := by
      simp only [filesOf, List.length_map, List.length_range] at hi
      omega
    rw [List.getElem_tail]
    simp only [filesOf, List.getElem_map, List.getElem_range]
    have hinode : (dirFile (filesBlock n) (i + 1)).inode = i + 1 + 3 := fileInode_filesBlock le hlt
    omega

/-- The first of two files moves. -/
theorem rename_moves_one_of_two :
    MovesOne (twoDirs 2) calmIo 1 [97, 1] 2 [98] 3 0 firstDir secondDir [] (filesOf 2).tail [] :=
  (rename_moves_one_iff (twoDirs_movable (by decide) (by decide)) (twoDirs_inodes 2) rfl
    (fun _ => rfl)).mpr (by decide)

/-- From a directory with 128 files the search reads slot 128. -/
theorem rename_leaves_full_block :
    Movable (twoDirs 128) 1 2 3 firstDir secondDir [98] [] (dirFile (filesBlock 128) 0)
        (filesOf 128).tail [] ∧
      Inodes (twoDirs 128) 1 2 3 firstDir secondDir firstFile ∧ calmIo.NoReadFails ∧
      ¬ MovesOne (twoDirs 128) calmIo 1 [97, 1] 2 [98] 3 0 firstDir secondDir []
          (filesOf 128).tail [] := by
  have hmovable := twoDirs_movable (n := 128) (by decide) (by decide)
  refine ⟨hmovable, twoDirs_inodes 128, fun _ => rfl, ?_⟩
  rintro ⟨-, hinside⟩
  exact absurd (hinside maxSubfiles (hmovable.touches_outside (by simp [filesOf, maxSubfiles])))
    (Nat.lt_irrefl _)

/-- Both directories are as they were. -/
structure Intact (w w' : World) (oldDir newDir src : Nat) (ciOld ciNew : Inode) : Prop where
  oldBlock : w'.disk ciOld.indexBlock = w.disk ciOld.indexBlock
  newBlock : w'.disk ciNew.indexBlock = w.disk ciNew.indexBlock
  oldLinks : (w'.icache oldDir).map Inode.iNlink = (w.icache oldDir).map Inode.iNlink
  newLinks : (w'.icache newDir).map Inode.iNlink = (w.icache newDir).map Inode.iNlink
  twice : ∀ i j, fileInode (w'.disk ciOld.indexBlock) i = src →
    fileInode (w'.disk ciNew.indexBlock) j = src →
    fileInode (w.disk ciOld.indexBlock) i = src ∧ fileInode (w.disk ciNew.indexBlock) j = src

theorem Intact.refl (w : World) (oldDir newDir src : Nat) (ciOld ciNew : Inode) :
    Intact w w oldDir newDir src ciOld ciNew :=
  ⟨rfl, rfl, rfl, rfl, fun _ _ hi hj => ⟨hi, hj⟩⟩

/-- Nothing stands in the way of the new entry, and then the old directory cannot
be read. -/
structure LateFailure (w : World) (io : Io) (oldDir newDir : Nat) (newName : List Byte)
    (flags : Nat) (ciNew : Inode) : Prop where
  supported : flags &&& (renameExchange ||| renameWhiteout) = 0
  name : newName.length ≤ filenameLen
  newRead : io.bread 0 = true
  fresh : ∀ i, i < maxSubfiles →
    strncmp filenameLen (fileName (w.disk ciNew.indexBlock) i) (cString newName) ≠ 0
  dirs : oldDir ≠ newDir
  room : ∃ i, i < maxSubfiles ∧ fileInode (w.disk ciNew.indexBlock) i = 0
  oldRead : io.bread 1 = false

section

variable {w w' : World} {oldDir newDir src flags : Nat} {ciOld ciNew inode : Inode} {io : Io}
  {oldName newName : List Byte} {ret : Int}

/-- Every other exit with an error comes before the first change. -/
theorem rename_error_cases (call : Inodes w oldDir newDir src ciOld ciNew inode)
    (run : ouichefsRename w io oldDir oldName newDir newName src flags = some (w', ret))
    (neg : ret < 0) : w' = w ∨ LateFailure w io oldDir newDir newName flags ciNew := by
  unfold ouichefsRename at run
  rw [call.old, call.new, call.source] at run
  simp only [Option.bind_some] at run
  by_cases hflags : flags &&& (renameExchange ||| renameWhiteout) ≠ 0
  · rw [if_pos hflags] at run
    cases run
    exact Or.inl rfl
  rw [if_neg hflags] at run
  by_cases hname : newName.length > filenameLen
  · rw [if_pos hname] at run
    cases run
    exact Or.inl rfl
  rw [if_neg hname] at run
  by_cases hnew : io.bread 0 = false
  · rw [if_pos hnew] at run
    cases run
    exact Or.inl rfl
  rw [if_neg hnew] at run
  cases hscan : renameScan (w.disk ciNew.indexBlock) (decide (newDir = oldDir)) oldName newName
    maxSubfiles 0 none none with
  | none =>
    rw [hscan] at run
    cases run
    exact Or.inl rfl
  | some r =>
    obtain ⟨fPos, newPos⟩ := r
    rw [hscan] at run
    simp only at run
    by_cases hdirs : oldDir = newDir
    · rw [if_pos hdirs] at run
      obtain ⟨f, _, hf⟩ := Option.map_eq_some_iff.mp run
      cases hf
      cases neg
    rw [if_neg hdirs] at run
    cases newPos with
    | none =>
      cases run
      exact Or.inl rfl
    | some p =>
      by_cases hold : io.bread 1 = false
      · exact Or.inr ⟨not_not.mp hflags, Nat.le_of_not_gt hname, by simpa using hnew,
          fun i => renameScan_fresh hscan, hdirs, ⟨p, newPos_unused hscan rfl⟩, hold⟩
      -- the old directory has been read: from here on nothing fails
      simp only [if_neg hold] at run
      split at run
      · cases run
      split at run
      · cases run
      cases run
      cases neg

/-- After such a failure the new directory has the entry. -/
theorem LateFailure.entered (late : LateFailure w io oldDir newDir newName flags ciNew)
    (call : Inodes w oldDir newDir src ciOld ciNew inode) (range : src < 4294967296)
    (oldName : List Byte) :
    ∃ w' p, ouichefsRename w io oldDir oldName newDir newName src flags = some (w', -errIo) ∧
      fileInode (w.disk ciNew.indexBlock) p = 0 ∧ fileInode (w'.disk ciNew.indexBlock) p = src ∧
      ∀ b, b ≠ ciNew.indexBlock → w'.disk b = w.disk b := by
  obtain ⟨fPos, newPos, hscan⟩ :=
    renameScan_goes late.fresh
  cases newPos with
  | none =>
    obtain ⟨i, hi, hzero⟩ := late.room
    exact absurd hzero ((newPos_none_iff hscan).mp rfl i hi)
  | some p =>
    obtain ⟨u, hdisk, hfail, -⟩ := rename_stored call late.supported late.name late.newRead hscan
      late.dirs
    refine ⟨u, p, hfail late.oldRead, (newPos_unused hscan rfl).2, ?_, ?_⟩
    · rw [hdisk, set_self, fileInode_strscpy]
      unfold fileInode
      rw [le32_putLe32_self, BitVec.toNat_ofNat]
      exact Nat.mod_eq_of_lt range
    · intro b hb
      rw [hdisk, set_of_ne _ _ hb]

/-- A rename that fails leaves both directories as they were, unless it is the read
of the old directory that fails when the new entry has been stored. -/
theorem failing_rename_intact_iff (call : Inodes w oldDir newDir src ciOld ciNew inode)
    (pos : 0 < src) (range : src < 4294967296) :
    (∀ w' ret, ouichefsRename w io oldDir oldName newDir newName src flags = some (w', ret) →
      ret < 0 → Intact w w' oldDir newDir src ciOld ciNew) ↔
    ¬ LateFailure w io oldDir newDir newName flags ciNew := by
  constructor
  · intro hintact late
    obtain ⟨w', p, hrun, hbefore, hafter, -⟩ := late.entered call range oldName
    have hsame := (hintact w' (-errIo) hrun (by decide)).newBlock
    rw [hsame, hbefore] at hafter
    omega
  · intro hlate w' ret hrun hneg
    rcases rename_error_cases call hrun hneg with rfl | late
    · exact Intact.refl _ _ _ _ _ _
    · exact absurd late hlate

end

/-- A failure at the first read. -/
theorem failing_rename_intact_unread :
    (ouichefsRename (twoDirs 2) { calmIo with bread := fun _ => false } 1 [97, 1] 2 [98] 3 0).map
        Prod.snd = some (-errIo) ∧
      ∀ w' ret, ouichefsRename (twoDirs 2) { calmIo with bread := fun _ => false } 1 [97, 1] 2 [98]
        3 0 = some (w', ret) → ret < 0 → Intact (twoDirs 2) w' 1 2 3 firstDir secondDir :=
  ⟨rfl, (failing_rename_intact_iff (twoDirs_inodes 2) (by decide) (by decide)).mpr
    fun late => by cases late.newRead⟩

/-- The second read fails: the file 3 is in both directories. -/
theorem failing_rename_names_twice :
    ∃ w' p, ouichefsRename (twoDirs 2) { calmIo with bread := fun n => decide (n = 0) } 1 [97, 1] 2
        [98] 3 0 = some (w', -errIo) ∧
      fileInode (w'.disk firstDir.indexBlock) 0 = 3 ∧
      fileInode (w'.disk secondDir.indexBlock) p = 3 ∧
      ¬ Intact (twoDirs 2) w' 1 2 3 firstDir secondDir := by
  have late : LateFailure (twoDirs 2) { calmIo with bread := fun n => decide (n = 0) } 1 2 [98] 0
      secondDir := by
    refine ⟨rfl, by decide, rfl, ?_, by decide, ⟨0, by decide, by decide⟩, rfl⟩
    intro i _ heq
    cases heq
  obtain ⟨w', p, hrun, hbefore, hafter, hframe⟩ :=
    late.entered (twoDirs_inodes 2) (by decide) [97, 1]
  refine ⟨w', p, hrun, ?_, hafter, ?_⟩
  · rw [hframe _ (by decide)]
    exact fileInode_filesBlock (by decide) (by decide)
  · intro hintact
    rw [hintact.newBlock, hbefore] at hafter
    cases hafter

end Rename
