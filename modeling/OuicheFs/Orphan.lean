import OuicheFs.VolumeRun
import OuicheFs.PlainWrite

/-!
# Files removed while open

`ouichefs_unlink` clears the inode at once, also when a descriptor keeps the
file open: the index block is then block 0 and the block count is 0. Calls
through the descriptor take the superblock for the index. They do no harm only
where they are refused or find every word in their way taken.
-/
namespace Orphan

open CInt Bits ByteBuffer IndexEntry Allocator FileContext Layout OuicheFile OuicheWrite
  OuicheDefrag OuicheInode OuicheSuper Mkfs FileRun Ownership Lifecycle LightWrite PlainWrite Loop
  VolumeRun

/-- A removed inode names block 0 as its index and counts no block. -/
structure Stripped (node : Inode) : Prop where
  index : node.indexBlock = 0
  iBlocks : node.iBlocks = 0

/-- The blocks missing up to the position `p`; the last block is looked for in
the first word of the index. -/
def missingBlocks (s : Ctx) (p : Nat) : Nat :=
  let available := if s.blocks 0 = 0 then 0 else blockSize - getBlockSize (s.blocks 0)
  idivCeil (p - s.node.iSize - available) blockSize

/-- The call is refused, or every word that it would fill is taken. -/
def HarmlessLightWrite (s : Ctx) (size p : Nat) : Prop :=
  s.io.bread 0 = false ∨ maxFilesize < p + size ∨
  (s.node.iSize < p ∧ spaceAvailable s (missingBlocks s p) < 0) ∨
  (p = 0 ∧ s.blocks 0 ≠ 0 ∧ getBlockSize (s.blocks 0) = 0 ∧
    (spaceAvailable s (idivCeil (size - blockSize) blockSize) < 0 ∨
      ∀ i, i < idivCeil (size - blockSize) blockSize → s.blocks (i + 1) ≠ 0))

def HarmlessWrite (s : Ctx) (size p : Nat) : Prop :=
  s.io.bread 0 = false ∨ maxFilesize < p + size ∨ spaceAvailable s (nbAllocs s size p) < 0 ∨
    ∀ i, i < nbAllocs s size p → s.blocks i ≠ 0

/-- The first pass finds only empty blocks to skip and never ends. -/
def HarmlessDefrag (s : Ctx) : Prop :=
  s.io.bread 0 = false ∨
    (s.node.iSize ≠ 0 ∧ getBlockSize (s.blocks 0) = 0 ∧ getBlockSize (s.blocks 1) = 0)

inductive HarmlessCall : Ctx → Ctx → Prop
  | lightWrite (s : Ctx) (io : Io) (fFlags pos : Nat) (data : List Byte) :
      HarmlessLightWrite { s with io := io } data.length (startPos s fFlags pos) →
      HarmlessCall s (ouichefsLightWrite { s with io := io } fFlags data pos).ctx
  | write (s : Ctx) (io : Io) (fFlags pos : Nat) (data : List Byte) :
      HarmlessWrite { s with io := io } data.length (startPos s fFlags pos) →
      HarmlessCall s (ouichefsWrite { s with io := io } fFlags data pos).ctx
  | defrag (s : Ctx) (io : Io) (fuel : Nat) (r : Ctx × Int) :
      HarmlessDefrag { s with io := io } → ouichefsDefrag fuel { s with io := io } = some r →
      HarmlessCall s r.1

/-- Neither the volume nor the index of the file has changed. -/
structure Inert (s t : Ctx) : Prop where
  sbi : t.sbi = s.sbi
  disk : t.disk = s.disk
  index : t.node.indexBlock = s.node.indexBlock
  iBlocks : t.node.iBlocks = s.node.iBlocks

/-- Taken words are passed over. -/
theorem reserveEmptyBlocks_taken (n : Nat) : ∀ (bli : Nat) (s : Ctx),
    (∀ i, i < n → s.blocks (bli + i) ≠ 0) →
    (reserveEmptyBlocks bli n s).2 = false ∧ (reserveEmptyBlocks bli n s).1.sbi = s.sbi ∧
      (reserveEmptyBlocks bli n s).1.disk = s.disk ∧
      (reserveEmptyBlocks bli n s).1.node = s.node ∧
      (reserveEmptyBlocks bli n s).1.io = s.io := by
  induction n with
  | zero => exact fun _ _ _ => ⟨rfl, rfl, rfl, rfl, rfl⟩
  | succ n ih =>
    intro bli s h
    have hne : (s.touch bli).blocks bli ≠ 0 := h 0 (by omega)
    obtain ⟨hret, hsbi, hdisk, hnode, hio⟩ := ih (bli + 1) (s.touch bli) (by
      intro i hi
      have := h (i + 1) (by omega)
      rwa [show bli + (i + 1) = bli + 1 + i by omega] at this)
    rw [reserveEmptyBlocks]
    simp only
    rw [if_pos hne]
    exact ⟨hret, hsbi, hdisk, hnode, hio⟩

section

variable {s : Ctx}

/-- Nothing is reserved and the loop over the data blocks does not start. -/
theorem writeBody_taken (st : Stripped s.node) (data : List Byte) (p : Nat) {n : Nat}
    (taken : ∀ i, i < n → s.blocks i ≠ 0) :
    (writeBody s data p n).1.sbi = s.sbi ∧ (writeBody s data p n).1.disk = s.disk ∧
      (writeBody s data p n).1.node = s.node := by
  have hstart : (max (i32 s.popBread.node.iBlocks - 1) 0).toNat = 0 := by
    change (max (i32 s.node.iBlocks - 1) 0).toNat = 0
    rw [st.iBlocks]
    decide
  obtain ⟨hret, hsbi, hdisk, hnode, _⟩ := reserveEmptyBlocks_taken n 0 s.popBread
    (fun i hi => by rw [Nat.zero_add]; exact taken i hi)
  have hreserve : reserveWriteBlocks s.popBread n = reserveEmptyBlocks 0 n s.popBread := by
    rw [reserveWriteBlocks, hstart]
  obtain ⟨q, hq⟩ : ∃ q, q = reserveEmptyBlocks 0 n s.popBread := ⟨_, rfl⟩
  rw [← hq] at hret hsbi hdisk hnode hreserve
  have hnone : (i32 ((q.1.node.iBlocks : Int) - 1) - ((p / blockSize : Nat) : Int)).toNat = 0 := by
    rw [hnode, show s.popBread.node = s.node from rfl, st.iBlocks,
      show i32 (((0 : Nat) : Int) - 1) = -1 from by decide]
    generalize p / blockSize = k
    omega
  unfold writeBody
  split
  · exact ⟨rfl, rfl, rfl⟩
  · simp only [hreserve, hret, Bool.false_eq_true, if_false, hnone, writeLoop]
    exact ⟨hsbi, hdisk, hnode⟩

theorem inert_write (st : Stripped s.node) {fFlags pos : Nat} {data : List Byte}
    (h : HarmlessWrite s data.length (startPos s fFlags pos)) :
    Inert s (ouichefsWrite s fFlags data pos).ctx := by
  obtain ⟨p, hp⟩ : ∃ p, p = startPos s fFlags pos := ⟨_, rfl⟩
  rcases ouichefsWrite_cases s fFlags data pos with ⟨_, _, hsame⟩ | ⟨hmax, hspace, f⟩
  · rw [hsame]
    exact ⟨rfl, rfl, rfl, rfl⟩
  rw [← hp] at h hmax hspace f
  obtain ⟨hsbi, hdisk, hbody⟩ : (writeBody s data p (nbAllocs s data.length p)).1.sbi = s.sbi ∧
      (writeBody s data p (nbAllocs s data.length p)).1.disk = s.disk ∧
      (writeBody s data p (nbAllocs s data.length p)).1.node = s.node := by
    rcases h with hfail | hbig | hno | htaken
    · unfold writeBody
      rw [if_pos hfail]
      exact ⟨rfl, rfl, rfl⟩
    · omega
    · exact absurd hno hspace
    · exact writeBody_taken st data p htaken
  obtain ⟨mt, ct, hnode⟩ := f.node
  rw [hbody] at hnode
  exact ⟨f.sbi.trans hsbi, f.disk.trans hdisk, by rw [hnode], by rw [hnode]⟩

/-- The first pass goes round without end. -/
structure Circling (s : Ctx) (p : Pass) : Prop where
  bli : p.bli = 0
  dataMoved : p.dataMoved = 0
  disk : p.ctx.disk = s.disk
  node : p.ctx.node = s.node

theorem Circling.step (st : Stripped s.node) (size : s.node.iSize ≠ 0)
    (second : getBlockSize (s.blocks 1) = 0) {p : Pass} (c : Circling s p) :
    ∃ p', passStep p = .next p' ∧ Circling s p' := by
  have hgo : p.dataMoved < p.ctx.node.iSize ∧ p.bli < u64 ((p.ctx.node.iBlocks : Int) - 2) := by
    rw [c.dataMoved, c.bli, c.node, st.iBlocks]
    exact ⟨Nat.pos_of_ne_zero size, by decide⟩
  have hempty : blockEmpty ((p.ctx.touch (((0 : Nat) : Int) + 1)).blocks 1) = true := by
    rw [blockEmpty_iff]
    change getBlockSize (p.ctx.blocks 1) = 0
    have hsame : p.ctx.blocks 1 = s.blocks 1 := blocks_congr (by rw [c.node]) (by rw [c.disk]) 1
    rw [hsame]
    exact second
  have hnone : (i32 (((p.ctx.touch (((0 : Nat) : Int) + 1)).node.iBlocks : Int) - 1) - 1 -
      ((1 : Nat) : Int)).toNat = 0 := by
    change (i32 ((p.ctx.node.iBlocks : Int) - 1) - 1 - _).toNat = 0
    rw [c.node, st.iBlocks]
    decide
  refine ⟨{ p with ctx := p.ctx.touch (((0 : Nat) : Int) + 1) }, ?_, c.bli, c.dataMoved, c.disk,
    c.node⟩
  unfold passStep
  rw [if_pos hgo]
  simp only [c.bli]
  rw [if_pos hempty, bubbleUpBlock, hnone]
  rfl

theorem inert_defrag (st : Stripped s.node) (h : HarmlessDefrag s) {fuel : Nat} {r : Ctx × Int}
    (run : ouichefsDefrag fuel s = some r) : Inert s r.1 := by
  unfold ouichefsDefrag at run
  split at run
  · cases run
    exact ⟨rfl, rfl, rfl, rfl⟩
  rename_i hread
  obtain ⟨hsize, hfirst, hsecond⟩ := h.resolve_left hread
  obtain ⟨r₀, hr₀, _⟩ := Option.map_eq_some_iff.mp run
  have hfirst' : getBlockSize ((s.popBread.touch 0).blocks 0) = 0 := hfirst
  rw [iterate_diverges (Circling s) (fun p c => c.step st hsize hsecond)
    ⟨rfl, hfirst', rfl, rfl⟩] at hr₀
  cases hr₀

/-- Nothing has changed, and nothing has been written. -/
structure Idle (s : Ctx) (size : Nat) (r : Ctx × Int × Nat) : Prop where
  sbi : r.1.sbi = s.sbi
  disk : r.1.disk = s.disk
  node : r.1.node = s.node
  left : r.2.2 = size

theorem lightWriteInsert_idle {buff : List Byte} (st : Stripped s.node) (word : s.blocks 0 ≠ 0)
    (h : spaceAvailable s (idivCeil (buff.length - blockSize) blockSize) < 0 ∨
      ∀ i, i < idivCeil (buff.length - blockSize) blockSize → s.blocks (i + 1) ≠ 0) :
    Idle s buff.length (lightWriteInsert s buff 0 0 false false 0) := by
  obtain ⟨n, hn⟩ : ∃ n, n = idivCeil (buff.length - blockSize) blockSize := ⟨_, rfl⟩
  rw [← hn] at h
  have hremaining : (max ((buff.length : Int) - ((blockSize : Int) - ((0 : Nat) : Int))) 0).toNat =
      buff.length - blockSize := by
    simp only [blockSize]
    omega
  have hword : ¬ (s.touch ((0 : Nat) : Int)).blocks 0 = 0 := word
  unfold lightWriteInsert
  simp only [hremaining, ← hn, if_neg hword, Bool.toNat_false, Nat.add_zero, Bool.false_eq_true,
    false_and, if_false]
  split
  · exact ⟨rfl, rfl, rfl, rfl⟩
  rename_i hspace
  have htaken := h.resolve_left hspace
  obtain ⟨_, hsbi, hdisk, hnode, _⟩ := reserveEmptyBlocks_taken n (0 + 1) (s.touch ((0 : Nat) : Int))
    (fun i hi => by rw [Nat.zero_add, Nat.add_comm]; exact htaken i hi)
  have hnone : (i32 (((reserveEmptyBlocks (0 + 1) n (s.touch ((0 : Nat) : Int))).1.node.iBlocks :
      Int) - 1) - ((0 : Nat) : Int)).toNat = 0 := by
    rw [hnode]
    change (i32 ((s.node.iBlocks : Int) - 1) - _).toNat = 0
    rw [st.iBlocks]
    decide
  rw [if_neg (by decide), hnone, lightWriteLoop]
  exact ⟨hsbi, hdisk, hnode, rfl⟩

theorem findBlockPosLoop_zero (blocks : Nat → Word) (n i : Nat) :
    findBlockPosLoop blocks n i 0 = some (i, 0) := by
  cases n <;> rfl

theorem lightWriteBody_idle {buff : List Byte} {p : Nat} (st : Stripped s.node)
    (h : (s.node.iSize < p ∧ spaceAvailable s (missingBlocks s p) < 0) ∨
      (p = 0 ∧ s.blocks 0 ≠ 0 ∧ getBlockSize (s.blocks 0) = 0 ∧
        (spaceAvailable s (idivCeil (buff.length - blockSize) blockSize) < 0 ∨
          ∀ i, i < idivCeil (buff.length - blockSize) blockSize → s.blocks (i + 1) ≠ 0))) :
    Idle s buff.length (lightWriteBody s buff p) := by
  have hlast : (max (i32 s.node.iBlocks - 2) 0).toNat = 0 := by
    rw [st.iBlocks]
    decide
  unfold lightWriteBody
  rcases h with ⟨hlt, hspace⟩ | ⟨hzero, hword, hempty, hrest⟩
  · rw [if_pos hlt]
    have hfill : fillToReachPos s p = (s.touch ((0 : Nat) : Int), none) := by
      unfold fillToReachPos
      simp only [hlast]
      exact if_pos hspace
    simp only [hfill]
    exact ⟨rfl, rfl, rfl, rfl⟩
  · subst hzero
    rw [if_neg (by omega)]
    have hfound : findBlockPos 0 s.blocks (i32 ((s.node.iBlocks : Int) - 1)) = some (0, 0) :=
      findBlockPosLoop_zero _ _ _
    have hcopy : u64 ((getBlockSize (s.blocks 0) : Int) - ((0 : Nat) : Int)) = 0 := by
      rw [hempty]
      decide
    have hidle := lightWriteInsert_idle
      (s := { s with touched := (List.range (0 + 1)).map Int.ofNat ++ s.touched })
      ⟨st.index, st.iBlocks⟩ hword hrest
    simp only [hfound, hlast, Option.map_some, Option.getD_some]
    have hmove : decide (u64 ((getBlockSize (s.blocks 0) : Int) - ((0 : Nat) : Int)) > 0) =
        false := by
      rw [hcopy]
      rfl
    have hdone : Idle s buff.length (lightWriteInsert
        { s with touched := (List.range (0 + 1)).map Int.ofNat ++ s.touched } buff 0 0
        (decide (u64 ((getBlockSize (s.blocks 0) : Int) - ((0 : Nat) : Int)) > 0))
        (decide ((0 : Nat) ≠ 0)) 0) := by
      rw [hmove]
      exact ⟨hidle.sbi, hidle.disk, hidle.node, hidle.left⟩
    exact hdone

theorem inert_lightWrite (st : Stripped s.node) {fFlags pos : Nat} {data : List Byte}
    (h : HarmlessLightWrite s data.length (startPos s fFlags pos)) :
    Inert s (ouichefsLightWrite s fFlags data pos).ctx := by
  unfold ouichefsLightWrite
  rw [writeFlags_eq]
  obtain ⟨p, hp⟩ : ∃ p, p = startPos s fFlags pos := ⟨_, rfl⟩
  rw [← hp] at h ⊢
  simp only
  split
  · exact ⟨rfl, rfl, rfl, rfl⟩
  rename_i hmax
  have hidle : Idle s data.length (if s.io.bread 0 = false then (s.popBread, -errIo, data.length)
      else lightWriteBody s.popBread data p) := by
    split
    · exact ⟨rfl, rfl, rfl, rfl⟩
    · rename_i hread
      have hbody := (h.resolve_left hread).resolve_left hmax
      have hb := lightWriteBody_idle (s := s.popBread) ⟨st.index, st.iBlocks⟩ hbody
      exact ⟨hb.sbi, hb.disk, hb.node, hb.left⟩
  rw [hidle.left, Nat.sub_self, if_neg (lt_irrefl 0)]
  exact ⟨hidle.sbi, hidle.disk, by rw [hidle.node], by rw [hidle.node]⟩

theorem HarmlessCall.inert {t : Ctx} (st : Stripped s.node) (call : HarmlessCall s t) :
    Inert s t := by
  cases call with
  | lightWrite io fFlags pos data h =>
    have hi := inert_lightWrite (s := { s with io := io }) ⟨st.index, st.iBlocks⟩ h
    exact ⟨hi.sbi, hi.disk, hi.index, hi.iBlocks⟩
  | write io fFlags pos data h =>
    have hi := inert_write (s := { s with io := io }) ⟨st.index, st.iBlocks⟩ h
    exact ⟨hi.sbi, hi.disk, hi.index, hi.iBlocks⟩
  | defrag io fuel r h run =>
    have hi := inert_defrag (s := { s with io := io }) ⟨st.index, st.iBlocks⟩ h run
    exact ⟨hi.sbi, hi.disk, hi.index, hi.iBlocks⟩

end

/-! ## Sessions -/

/-- Any call on an open file, with the outcomes of its reads and copies. -/
inductive FileCall : Ctx → Ctx → Prop
  | lightWrite (s : Ctx) (io : Io) (fFlags pos : Nat) (data : List Byte) :
      FileCall s (ouichefsLightWrite { s with io := io } fFlags data pos).ctx
  | write (s : Ctx) (io : Io) (fFlags pos : Nat) (data : List Byte) :
      FileCall s (ouichefsWrite { s with io := io } fFlags data pos).ctx
  | defrag (s : Ctx) (io : Io) (fuel : Nat) (r : Ctx × Int) :
      ouichefsDefrag fuel { s with io := io } = some r → FileCall s r.1
  | truncate (s : Ctx) (io : Io) (fuel fFlags : Nat) (r : Ctx × Int) :
      ouichefsOpen fuel { s with io := io } fFlags = some r → FileCall s r.1

/-- A mounted volume and the removed inodes that descriptors may still refer to. -/
structure Session where
  world : World
  orphans : List Nat

/-- A number that is given to a new file is an orphan no more: `iget_locked`
finds the inode in the cache and the descriptor is one of the new file. -/
inductive SessionStep : Session → Session → Prop
  | lookup (w : World) (orphans : List Nat) (who : Caller) (io : Io) (dir : Nat)
      (name : List Byte) (r : World × Except Int (Option Nat)) :
      dir ∉ orphans → ouichefsLookup w who io dir name = some r →
      SessionStep ⟨w, orphans⟩ ⟨r.1, orphans⟩
  | rename (w : World) (orphans : List Nat) (io : Io) (oldDir newDir src flags : Nat)
      (oldName newName : List Byte) (r : World × Int) :
      oldDir ∉ orphans → newDir ∉ orphans →
      ouichefsRename w io oldDir oldName newDir newName src flags = some r →
      SessionStep ⟨w, orphans⟩ ⟨r.1, orphans⟩
  | create (w : World) (orphans : List Nat) (who : Caller) (io : Io) (dir : Nat)
      (name : List Byte) (mode : Nat) (r : World × Int) :
      dir ∉ orphans → io.NoReadFails → ouichefsCreate w who io dir name mode = some r →
      SessionStep ⟨w, orphans⟩ ⟨r.1, orphans.filter fun j => ¬ InUse r.1.sbi j⟩
  | mkdir (w : World) (orphans : List Nat) (who : Caller) (io : Io) (dir : Nat)
      (name : List Byte) (mode : Nat) (r : World × Int) :
      dir ∉ orphans → io.NoReadFails → ouichefsMkdir w who io dir name mode = some r →
      SessionStep ⟨w, orphans⟩ ⟨r.1, orphans.filter fun j => ¬ InUse r.1.sbi j⟩
  | unlink (w : World) (orphans : List Nat) (io : Io) (dir ino : Nat) (r : World × Int) :
      dir ∉ orphans → ino ∉ orphans → ouichefsUnlink w io dir ino = some r →
      SessionStep ⟨w, orphans⟩ ⟨r.1, if r.2 = 0 then ino :: orphans else orphans⟩
  | rmdir (w : World) (orphans : List Nat) (io : Io) (dir ino : Nat) (r : World × Int) :
      dir ∉ orphans → ino ∉ orphans → ouichefsRmdir w io dir ino = some r →
      SessionStep ⟨w, orphans⟩ ⟨r.1, orphans⟩
  | call (w : World) (orphans : List Nat) (ino : Nat) (node : Inode) (t : Ctx) :
      ino ∉ orphans → w.icache ino = some node → FileCall (w.ctx node calmIo) t →
      SessionStep ⟨w, orphans⟩ ⟨w.withCtx ino t, orphans⟩
  | orphanCall (w : World) (orphans : List Nat) (ino : Nat) (node : Inode) (t : Ctx) :
      ino ∈ orphans → w.icache ino = some node → HarmlessCall (w.ctx node calmIo) t →
      SessionStep ⟨w, orphans⟩ ⟨w.withCtx ino t, orphans⟩

section

variable {w w' : World} {j : Nat} {node : Inode}

theorem ouichefsIget_keeps {who : Caller} {ok : Bool} {ino : Nat}
    (run : ouichefsIget w who ok ino = .ok w') (cached : w.icache j = some node) :
    w'.icache j = some node ∧ w'.sbi = w.sbi := by
  unfold ouichefsIget at run
  simp only at run
  split at run
  · cases run
  split at run
  · cases run
  split at run
  · cases run
    exact ⟨cached, rfl⟩
  rename_i hnone
  split at run
  · cases run
  cases run
  have hne : j ≠ ino := by
    rintro rfl
    rw [hnone] at cached
    cases cached
  refine ⟨?_, rfl⟩
  simp only [World.cache, if_neg hne]
  exact cached

theorem ouichefsLookup_keeps {who : Caller} {io : Io} {dir : Nat} {name : List Byte}
    {r : World × Except Int (Option Nat)} (run : ouichefsLookup w who io dir name = some r)
    (ne : j ≠ dir) (cached : w.icache j = some node) : r.1.icache j = some node := by
  unfold ouichefsLookup at run
  obtain ⟨d, _, run⟩ := Option.bind_eq_some_iff.mp run
  split at run
  · cases run
    exact cached
  split at run
  · cases run
    exact cached
  split at run
  · cases run
    exact (modify_of_ne _ _ ne).trans cached
  split at run
  · cases run
  · rename_i w₁ hget
    cases run
    exact (modify_of_ne _ _ ne).trans (ouichefsIget_keeps hget cached).1

/-- A rename changes the inodes of the two directories only. -/
theorem ouichefsRename_keeps {io : Io} {oldDir newDir src flags : Nat}
    {oldName newName : List Byte} {r : World × Int}
    (run : ouichefsRename w io oldDir oldName newDir newName src flags = some r)
    (hold : j ≠ oldDir) (hnew : j ≠ newDir) (cached : w.icache j = some node) :
    r.1.icache j = some node := by
  unfold ouichefsRename at run
  obtain ⟨ciOld, _, run⟩ := Option.bind_eq_some_iff.mp run
  obtain ⟨ciNew, _, run⟩ := Option.bind_eq_some_iff.mp run
  obtain ⟨inode, _, run⟩ := Option.bind_eq_some_iff.mp run
  split at run
  · cases run
    exact cached
  split at run
  · cases run
    exact cached
  split at run
  · cases run
    exact cached
  simp only at run
  split at run
  · cases run
    exact cached
  split at run
  · obtain ⟨fPos, _, rfl⟩ := Option.map_eq_some_iff.mp run
    exact cached
  split at run
  · cases run
    exact cached
  split at run
  · cases run
    exact (modify_of_ne _ _ hnew).trans cached
  split at run
  · cases run
  split at run
  · cases run
  · cases run
    exact (modify_of_ne _ _ hold).trans ((modify_of_ne _ _ hnew).trans cached)

/-- A cached inode stays as it is, unless its number is taken. -/
theorem ouichefsNewInode_keeps (who : Caller) (io : Io) (d : Inode) (mode : Nat)
    (cached : w.icache j = some node) :
    (ouichefsNewInode w who io d mode).1.icache j = some node ∨
      ((ouichefsNewInode w who io d mode).2 = .ok j ∧
        InUse (ouichefsNewInode w who io d mode).1.sbi j) := by
  unfold ouichefsNewInode
  split
  · exact Or.inl cached
  split
  · exact Or.inl cached
  obtain ⟨hsame, hget⟩ := getFreeInode_spec w.sbi
  obtain ⟨r, hr⟩ : ∃ r, r = getFreeInode w.sbi := ⟨_, rfl⟩
  rw [← hr] at hsame hget
  simp only [← hr]
  split
  · exact Or.inl cached
  rename_i hne
  obtain ⟨hpos, hlt, _, hbits⟩ := hget.resolve_left fun h => hne h.1
  split
  · exact Or.inl cached
  rename_i w₁ higet
  obtain ⟨hcache, hsbi⟩ := ouichefsIget_keeps higet cached
  split
  · exact Or.inl hcache
  by_cases hj : j = r.1
  · subst hj
    obtain ⟨hlayout, hinodes, _⟩ := getFreeBlock_spec w₁.sbi
    refine Or.inr ⟨rfl, hpos, ?_, ?_⟩
    · change r.1 < (getFreeBlock w₁.sbi).2.nrInodes
      rw [hlayout.nrInodes, hsbi, hsame.layout.nrInodes]
      exact hlt
    · change (getFreeBlock w₁.sbi).2.ifreeBitmap r.1 = false
      rw [hinodes, hsbi, hbits, clearBit_self]
  · refine Or.inl ((modify_of_ne _ _ hj).trans hcache)

theorem ouichefsCreate_keeps {who : Caller} {io : Io} {dir mode : Nat} {name : List Byte}
    {r : World × Int} (reads : io.NoReadFails) (run : ouichefsCreate w who io dir name mode = some r)
    (ne : j ≠ dir) (cached : w.icache j = some node) (spare : ¬ InUse r.1.sbi j) :
    r.1.icache j = some node := by
  obtain ⟨d, _, hexits⟩ := ouichefsCreate_exits run
  have hkeep := ouichefsNewInode_keeps who io d mode cached
  rcases hexits with ⟨hw, _⟩ | ⟨ret, hq, _⟩ | ⟨w₁, ino, n, hq, _, hend⟩
  · rw [hw]
    exact cached
  · rw [hq] at hkeep
    rcases hkeep with hsame | ⟨hok, _⟩
    · exact hsame
    · cases hok
  rw [hq] at hkeep
  rcases hend with ⟨hfails, _⟩ | ⟨_, hr⟩
  · rw [reads 2] at hfails
    cases hfails
  rw [hr] at spare ⊢
  rcases hkeep with hsame | ⟨_, hin⟩
  · exact (modify_of_ne _ _ ne).trans hsame
  · exact absurd hin spare

/-- A removal changes the inode of the parent and strips its own. -/
theorem ouichefsUnlink_keeps {io : Io} {dir ino : Nat} {r : World × Int}
    (run : ouichefsUnlink w io dir ino = some r) :
    (∀ j node, j ≠ dir → j ≠ ino → w.icache j = some node → r.1.icache j = some node) ∧
      (r.2 = 0 → ∃ node, r.1.icache ino = some node ∧ Stripped node) := by
  unfold ouichefsUnlink at run
  obtain ⟨d, hd, run⟩ := Option.bind_eq_some_iff.mp run
  obtain ⟨inode, hinode, run⟩ := Option.bind_eq_some_iff.mp run
  split at run
  · cases run
    exact ⟨fun _ _ _ _ h => h, fun h => by cases h⟩
  split at run
  · cases run
  rename_i fId nrSubs _
  cases run
  refine ⟨?_, fun _ => ?_⟩
  · intro j node hdir hino hc
    refine (modify_of_ne _ _ hino).trans ?_
    rw [scrubBlocks_icache, modify_of_ne _ _ hdir]
    exact hc
  · obtain ⟨n, hn⟩ : ∃ n, (scrubBlocks ((w.setBlock d.indexBlock
        (removeSub (w.disk d.indexBlock) fId nrSubs)).modify dir (fun d => { d with
          iMtime := io.now, iAtime := io.now, iCtime := io.now
          iNlink := if sIsdir inode.iMode then u32 ((d.iNlink : Int) - 1) else d.iNlink })) io
        inode).icache ino = some n := by
      rw [scrubBlocks_icache]
      by_cases hdir : ino = dir
      · subst hdir
        exact ⟨_, modify_self _ hinode⟩
      · rw [modify_of_ne _ _ hdir]
        exact ⟨inode, hinode⟩
    exact ⟨cleanInode n, modify_self _ hn, rfl, rfl⟩

theorem ouichefsUnlink_ret {io : Io} {dir ino : Nat} {r : World × Int}
    (run : ouichefsUnlink w io dir ino = some r) : io.bread 0 = false ∨ r.2 = 0 := by
  unfold ouichefsUnlink at run
  obtain ⟨d, _, run⟩ := Option.bind_eq_some_iff.mp run
  obtain ⟨inode, _, run⟩ := Option.bind_eq_some_iff.mp run
  split at run
  · rename_i hread
    exact Or.inl hread
  split at run
  · cases run
  · cases run
    exact Or.inr rfl

theorem ouichefsRmdir_keeps {io : Io} {dir ino : Nat} {r : World × Int}
    (run : ouichefsRmdir w io dir ino = some r) (hdir : j ≠ dir) (hino : j ≠ ino)
    (cached : w.icache j = some node) : r.1.icache j = some node := by
  unfold ouichefsRmdir at run
  obtain ⟨inode, _, run⟩ := Option.bind_eq_some_iff.mp run
  split at run
  · cases run
    exact cached
  split at run
  · cases run
    exact cached
  split at run
  · cases run
    exact cached
  exact (ouichefsUnlink_keeps run).1 j node hdir hino cached

theorem withCtx_of_ne (w : World) {ino j : Nat} (t : Ctx) (h : j ≠ ino) :
    (w.withCtx ino t).icache j = w.icache j := by
  simp [World.withCtx, World.cache, h]

end

/-- Every orphan is stripped. -/
def Session.AllStripped (s : Session) : Prop :=
  ∀ j ∈ s.orphans, ∃ node, s.world.icache j = some node ∧ Stripped node

theorem SessionStep.stripped {s s' : Session} (h : s.AllStripped) (step : SessionStep s s') :
    s'.AllStripped := by
  cases step with
  | lookup w orphans who io dir name r hdir run =>
    intro j hj
    obtain ⟨node, hc, st⟩ := h j hj
    exact ⟨node, ouichefsLookup_keeps run (fun heq => hdir (heq ▸ hj)) hc, st⟩
  | rename w orphans io oldDir newDir src flags oldName newName r hold hnew run =>
    intro j hj
    obtain ⟨node, hc, st⟩ := h j hj
    refine ⟨node, ouichefsRename_keeps run ?_ ?_ hc, st⟩
    · exact fun heq => hold (heq ▸ hj)
    · exact fun heq => hnew (heq ▸ hj)
  | create w orphans who io dir name mode r hdir reads run =>
    intro j hj
    obtain ⟨hmem, hspare⟩ := List.mem_filter.mp hj
    obtain ⟨node, hc, st⟩ := h j hmem
    refine ⟨node, ?_, st⟩
    exact ouichefsCreate_keeps reads run (fun heq => hdir (heq ▸ hmem)) hc (of_decide_eq_true hspare)
  | mkdir w orphans who io dir name mode r hdir reads run =>
    intro j hj
    obtain ⟨hmem, hspare⟩ := List.mem_filter.mp hj
    obtain ⟨node, hc, st⟩ := h j hmem
    refine ⟨node, ?_, st⟩
    exact ouichefsCreate_keeps reads run (fun heq => hdir (heq ▸ hmem)) hc (of_decide_eq_true hspare)
  | unlink w orphans io dir ino r hdir hino run =>
    obtain ⟨hkeep, hgone⟩ := ouichefsUnlink_keeps run
    have hold : ∀ j ∈ orphans, ∃ node, r.1.icache j = some node ∧ Stripped node := by
      intro j hj
      obtain ⟨node, hc, st⟩ := h j hj
      refine ⟨node, hkeep j node ?_ ?_ hc, st⟩
      · exact fun heq => hdir (heq ▸ hj)
      · exact fun heq => hino (heq ▸ hj)
    intro j hj
    by_cases hret : r.2 = 0
    · simp only [if_pos hret] at hj
      rcases List.mem_cons.mp hj with rfl | hj
      · exact hgone hret
      · exact hold j hj
    · simp only [if_neg hret] at hj
      exact hold j hj
  | rmdir w orphans io dir ino r hdir hino run =>
    intro j hj
    obtain ⟨node, hc, st⟩ := h j hj
    refine ⟨node, ouichefsRmdir_keeps run ?_ ?_ hc, st⟩
    · exact fun heq => hdir (heq ▸ hj)
    · exact fun heq => hino (heq ▸ hj)
  | call w orphans ino node t hino hcache call =>
    intro j hj
    obtain ⟨node', hc, st⟩ := h j hj
    have hne : j ≠ ino := by
      rintro rfl
      exact hino hj
    exact ⟨node', (withCtx_of_ne w t hne).trans hc, st⟩
  | orphanCall w orphans ino node t hino hcache call =>
    intro j hj
    obtain ⟨node', hc, st⟩ := h j hj
    by_cases hji : j = ino
    · subst hji
      obtain rfl : node = node' := Option.some.inj (hcache.symm.trans hc)
      have hi := HarmlessCall.inert st call
      refine ⟨t.node, by simp [World.withCtx, World.cache], ?_, ?_⟩
      · rw [hi.index]
        exact st.index
      · rw [hi.iBlocks]
        exact st.iBlocks
    · exact ⟨node', (withCtx_of_ne w t hji).trans hc, st⟩

theorem session_stripped {s s' : Session} (h : s.AllStripped)
    (run : Relation.ReflTransGen SessionStep s s') : s'.AllStripped := by
  induction run with
  | refl => exact h
  | tail _ step ih => exact step.stripped ih

/-- A call through the descriptor of `ino` has left alone the blocks in front of
the data area and those of the other live inodes, and has freed no block but
its own. -/
structure Spared (w w' : World) (ino : Nat) : Prop where
  metadata : ∀ b, b < metaEnd w.sbi → w'.disk b = w.disk b
  others : ∀ j b, j ≠ ino → b ∈ holds w j → w'.disk b = w.disk b
  freed : ∀ b, w'.sbi.bfreeBitmap b = true → w.sbi.bfreeBitmap b = true ∨ b ∈ holds w ino

/-- In every session in which all calls through descriptors of removed files are
harmless, each such call spares the volume. -/
theorem orphan_spares (w₀ : World) (s : Session)
    (run : Relation.ReflTransGen SessionStep ⟨w₀, []⟩ s) (ino : Nat) (orphan : ino ∈ s.orphans)
    (node : Inode) (cached : s.world.icache ino = some node) (t : Ctx)
    (call : HarmlessCall (s.world.ctx node calmIo) t) :
    Spared s.world (s.world.withCtx ino t) ino := by
  have hempty : Session.AllStripped ⟨w₀, []⟩ := fun j hj => absurd hj (by simp)
  obtain ⟨node', hc, st⟩ := session_stripped hempty run ino orphan
  obtain rfl : node = node' := Option.some.inj (cached.symm.trans hc)
  have hi := HarmlessCall.inert st call
  have hdisk : t.disk = s.world.disk := hi.disk
  have hsbi : t.sbi = s.world.sbi := hi.sbi
  refine ⟨?_, ?_, ?_⟩
  · intro b _
    exact congrFun hdisk b
  · intro j b _ _
    exact congrFun hdisk b
  · intro b hb
    change t.sbi.bfreeBitmap b = true at hb
    rw [hsbi] at hb
    exact Or.inl hb

/-- The file of `sampleRun` is removed. -/
def sampleOrphan : Option (World × Inode) :=
  sampleRun.bind fun p => (ouichefsUnlink p.2 calmIo 1 2).bind fun r =>
    (r.1.icache 2).map fun node => (r.1, node)

/-- A file is created on a new volume of 100 blocks and removed while open. -/
theorem sampleOrphan_run (f : World × Inode → Bool) (h : sampleOrphan.map f = some true) :
    ∃ image w₀ s node, mkfs (fun _ => true) 409600 (fun _ => zeroBlock) = some image ∧
      ouichefsFillSuper image ⟨0, 0, true⟩ (fun _ => true) (fun _ => true) = .ok w₀ ∧
      Relation.ReflTransGen SessionStep ⟨w₀, []⟩ s ∧ 2 ∈ s.orphans ∧
      s.world.icache 2 = some node ∧ f (s.world, node) = true := by
  obtain ⟨q, hq, hf⟩ := Option.map_eq_some_iff.mp h
  obtain ⟨p, hp, hq⟩ := Option.bind_eq_some_iff.mp hq
  obtain ⟨r, hr, hq⟩ := Option.bind_eq_some_iff.mp hq
  obtain ⟨node, hnode, rfl⟩ := Option.map_eq_some_iff.mp hq
  obtain ⟨image, c, himage, hw₀, hc, hcw⟩ := newFileOver_run hp
  rw [← hcw] at hr
  have hret : r.2 = 0 := (ouichefsUnlink_ret hr).resolve_left (by simp [calmIo])
  refine ⟨image, p.1, ⟨r.1, [2]⟩, node, himage, hw₀, ?_, List.mem_singleton_self 2, hnode, hf⟩
  refine .tail (.single (.create p.1 [] _ calmIo 1 _ _ c (by simp) (fun _ => rfl) hc)) ?_
  have hstep := SessionStep.unlink c.1 [] calmIo 1 2 r (by simp) (by simp) hr
  rw [if_pos hret] at hstep
  exact hstep

/-- Four bytes at position 0 find the word of the magic number taken. -/
theorem orphan_spares_head : ∃ image w₀ s node,
    mkfs (fun _ => true) 409600 (fun _ => zeroBlock) = some image ∧
    ouichefsFillSuper image ⟨0, 0, true⟩ (fun _ => true) (fun _ => true) = .ok w₀ ∧
    Relation.ReflTransGen SessionStep ⟨w₀, []⟩ s ∧ 2 ∈ s.orphans ∧ s.world.icache 2 = some node ∧
    Spared s.world (s.world.withCtx 2
      (ouichefsLightWrite (s.world.ctx node calmIo) 1 [66, 67, 68, 69] 0).ctx) 2 := by
  obtain ⟨image, w₀, s, node, formatted, mount, run, orphan, cached, hf⟩ := sampleOrphan_run
    (fun q => decide ((q.1.ctx q.2 calmIo).blocks 0 ≠ 0 ∧
      getBlockSize ((q.1.ctx q.2 calmIo).blocks 0) = 0)) (by decide +kernel)
  obtain ⟨hword, hempty⟩ := of_decide_eq_true hf
  have call := HarmlessCall.lightWrite (s.world.ctx node calmIo) calmIo 1 0 [66, 67, 68, 69]
    (Or.inr (Or.inr (Or.inr ⟨rfl, hword, hempty, Or.inr fun i hi => absurd hi (by decide +revert)⟩)))
  exact ⟨image, w₀, s, node, formatted, mount, run, orphan, cached,
    orphan_spares w₀ s run 2 orphan node cached _ call⟩

/-- One byte at position 4097 rewrites the magic number of the volume. -/
theorem orphan_spares_not_always : ¬ ∀ (image : Store) (w₀ : World) (s : Session),
    mkfs (fun _ => true) 409600 (fun _ => zeroBlock) = some image →
    ouichefsFillSuper image ⟨0, 0, true⟩ (fun _ => true) (fun _ => true) = .ok w₀ →
    Relation.ReflTransGen SessionStep ⟨w₀, []⟩ s → ∀ ino ∈ s.orphans, ∀ node,
    s.world.icache ino = some node → ∀ t, FileCall (s.world.ctx node calmIo) t →
    Spared s.world (s.world.withCtx ino t) ino := by
  intro hall
  obtain ⟨image, w₀, s, node, formatted, mount, run, orphan, cached, hf⟩ := sampleOrphan_run
    (fun q => decide (0 < metaEnd q.1.sbi ∧
      le32 ((ouichefsLightWrite (q.1.ctx q.2 calmIo) 1 [66] 4097).ctx.disk 0) 0 ≠
        le32 (q.1.disk 0) 0)) (by decide +kernel)
  obtain ⟨hpos, hne⟩ := of_decide_eq_true hf
  have hspared := hall image w₀ s formatted mount run 2 orphan node cached _
    (.lightWrite (s.world.ctx node calmIo) calmIo 1 4097 [66])
  refine hne ?_
  rw [show (ouichefsLightWrite (s.world.ctx node calmIo) 1 [66] 4097).ctx.disk 0 =
    s.world.disk 0 from hspared.metadata 0 hpos]

end Orphan
