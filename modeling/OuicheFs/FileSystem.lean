import OuicheFs.Remount
import OuicheFs.Delivery
import OuicheFs.InodeCount
import OuicheFs.Lib.FileTree

/-!
# The file system that users see

What a volume shows is a tree of names with the bytes of the files. Every call
without failing reads of directories does on it what an abstract file system
does; reads, writes and defragmentations of files do so whatever fails.
-/
namespace FileSystem

open CInt Bits ByteBuffer IndexEntry Allocator FileContext Layout OuicheRead OuicheWrite OuicheDefrag
  OuicheInode OuicheDir OuicheSuper Mkfs LightWrite Compaction Streaming FileRun Ledger Ownership Lifecycle
  VolumeRun Directory Hierarchy DirTree Isolation InodeCount WholeVolume Remount InodeStore
  OuicheSync FileTree Overlap

abbrev Name : Type := { name : List Byte // NameOk name }

/-- The inode behind a number in use as `ouichefs_iget` returns it. -/
def inodeOf (w : World) (ino : Nat) : Option Inode :=
  if InUse w.sbi ino then
    some ((w.icache ino).getD
      (inodeAt (w.disk (ino / inodesPerBlock + 1)) (80 * (ino % inodesPerBlock))))
  else none

def kindOf (mode : Nat) : Kind := if sIsdir mode then .directory else .file

def view (w : World) : State Nat Name Byte where
  kind := fun i => (inodeOf w i).map fun node => kindOf node.iMode
  entry := fun dir name => (inodeOf w dir).bind fun d =>
    if sIsdir d.iMode then lookupLoop (w.disk d.indexBlock) name.1 maxSubfiles 0 else none
  bytes := fun i =>
    match inodeOf w i with
    | some node => if sIsdir node.iMode then [] else (w.ctx node calmIo).content
    | none => []

theorem inodeOf_eq_live {w : World} (h : WorldInv w) (i : Nat) : inodeOf w i = live w i := by
  unfold inodeOf live
  by_cases hin : InUse w.sbi i
  · obtain ⟨node, hc⟩ := h.cached i hin
    rw [if_pos hin, if_pos hin, hc]
    rfl
  · rw [if_neg hin, if_neg hin]

section

variable {w w' : World} {t : Tree Nat (List Byte)} {dir i : Nat} {d node : Inode}

theorem view_kind (h : WorldInv w) (own : live w i = some node) :
    (view w).kind i = some (kindOf node.iMode) := by
  change (inodeOf w i).map _ = _
  rw [inodeOf_eq_live h, own]
  rfl

theorem view_absent (h : WorldInv w) (none_ : live w i = none) :
    (view w).kind i = none ∧ (view w).bytes i = [] := by
  constructor
  · change (inodeOf w i).map _ = _
    rw [inodeOf_eq_live h, none_]
    rfl
  · change (match inodeOf w i with | some _ => _ | none => _) = _
    rw [inodeOf_eq_live h, none_]

theorem view_bytes (h : WorldInv w) (own : live w i = some node) :
    (view w).bytes i = if sIsdir node.iMode then [] else (w.ctx node calmIo).content := by
  change (match inodeOf w i with | some _ => _ | none => _) = _
  rw [inodeOf_eq_live h, own]

/-- Names lead where the links of the tree lead. -/
theorem view_entry (h : VolumeInv w t) (dir : Nat) (name : Name) :
    (view w).entry dir name = t.find dir name.1 := by
  change (inodeOf w dir).bind _ = _
  rw [inodeOf_eq_live h.world]
  cases hl : live w dir with
  | none =>
    have hout : ¬ InUse w.sbi dir := by
      intro hin
      obtain ⟨node, hc⟩ := h.world.cached dir hin
      rw [live_eq_some.mpr ⟨hin, hc⟩] at hl
      cases hl
    have hnil := h.tree.tree.leaf dir (h.tree.idle dir hout)
    unfold Tree.find
    rw [hnil]
    rfl
  | some node =>
    change (if sIsdir node.iMode then _ else none) = _
    by_cases hdir : sIsdir node.iMode = true
    · rw [if_pos hdir]
      exact h.lookup_eq ⟨hl, hdir⟩ name.2
    · have hnil := h.tree.tree.leaf dir ((h.folder hl).trans (by simpa using hdir))
      rw [if_neg hdir]
      unfold Tree.find
      rw [hnil]
      rfl

/-- To users the inode `i` is the same. -/
structure Same (w w' : World) (i : Nat) : Prop where
  kept : ∀ node, live w i = some node →
    ∃ node', live w' i = some node' ∧ SameFile w w' node node'
  absent : live w i = none → live w' i = none
  frame : ∀ node, live w i = some node → sIsreg node.iMode = true →
    ∀ b ∈ holds w i, w'.disk b = w.disk b

theorem same_of_untouched (u : Untouched w w' i) (frame : ∀ node, live w i = some node →
    sIsreg node.iMode = true → ∀ b ∈ holds w i, w'.disk b = w.disk b) : Same w w' i := by
  refine ⟨fun node own => ?_, fun none_ => ?_, frame⟩
  · obtain ⟨hin, hc⟩ := live_eq_some.mp own
    obtain ⟨node', hc', hsame⟩ := u.present node hc
    exact ⟨node', live_eq_some.mpr ⟨u.inUse.mpr hin, hc'⟩, hsame⟩
  · cases hl : live w' i with
    | none => rfl
    | some node =>
      obtain ⟨n, hn, _⟩ := u.live_of hl
      rw [none_] at hn
      cases hn

theorem Same.kind (s : Same w w' i) (h : WorldInv w) (h' : WorldInv w') :
    (view w').kind i = (view w).kind i := by
  cases hl : live w i with
  | none => rw [(view_absent h hl).1, (view_absent h' (s.absent hl)).1]
  | some node =>
    obtain ⟨node', hl', hsame⟩ := s.kept node hl
    rw [view_kind h hl, view_kind h' hl', hsame.mode]

theorem Same.bytes (s : Same w w' i) (h : WorldInv w) (h' : WorldInv w') :
    (view w').bytes i = (view w).bytes i := by
  cases hl : live w i with
  | none => rw [(view_absent h hl).2, (view_absent h' (s.absent hl)).2]
  | some node =>
    obtain ⟨node', hl', hsame⟩ := s.kept node hl
    rw [view_bytes h hl, view_bytes h' hl', hsame.mode]
    by_cases hdir : sIsdir node.iMode = true
    · rw [if_pos hdir, if_pos hdir]
    rw [if_neg hdir, if_neg hdir]
    have hreg : sIsreg node.iMode = true := (h.sound i node hl).type.resolve_left hdir
    obtain ⟨es, hinv, hholds⟩ := h.fileInv hl hreg calmIo
    have hshape : Shape (w'.ctx node' calmIo) es :=
      hinv.shape.congr (fun j _ => hsame.blocks hreg j) hsame.iBlocks hsame.index
    rw [hshape.content_eq, hinv.shape.content_eq]
    refine bytesOf_congr fun e he => s.frame node hl hreg _ ?_
    rw [hholds]
    exact List.mem_cons_of_mem _ (mem_numbers_of_mem he)

theorem Relinked.same (r : Relinked w w') (h : WorldInv w) (i : Nat) : Same w w' i := by
  refine same_of_untouched (r.untouched h i) fun node hl hreg b hb => ?_
  rcases r.disk b with heq | ⟨j, m, hm, rfl⟩
  · exact heq
  · -- the block of a directory is not held by a file
    obtain rfl := h.ledger.disjoint i j _ hb (index_mem_holds hm.live)
    obtain rfl : m = node := Option.some.inj (hm.live.symm.trans hl)
    rw [sIsreg_of_sIsdir hm.type] at hreg
    cases hreg

/-- Under the directory of a call a file keeps its blocks. -/
theorem same_of_parent (h : WorldInv w) (parent : LiveDir w dir d) (untouched : Untouched w w' i)
    (frame : ∀ b ∈ holds w i, b ≠ d.indexBlock → w'.disk b = w.disk b) : Same w w' i := by
  refine same_of_untouched untouched fun node hl hreg b hb => frame b hb ?_
  rintro rfl
  obtain rfl := h.ledger.disjoint i dir _ hb (index_mem_holds parent.live)
  obtain rfl : d = node := Option.some.inj (parent.live.symm.trans hl)
  rw [sIsreg_of_sIsdir parent.type] at hreg
  cases hreg

theorem Created.same {ino bno mode : Nat} (h : WorldInv w) (c : Created w dir d ino bno mode w')
    (parent : LiveDir w dir d) (ne : i ≠ ino) : Same w w' i := by
  obtain ⟨w₁, new, sbi⟩ := c.new
  have hbit : w'.sbi.ifreeBitmap i = w.sbi.ifreeBitmap i := by
    rw [sbi, new.inodes, clearBit_of_ne _ ne]
  have hbno : ∀ b, w.sbi.bfreeBitmap b = false → b ≠ bno := by
    rintro b hb rfl
    rw [new.bno_free] at hb
    cases hb
  refine same_of_parent h parent (untouched_of_parent h parent c.up
    (inUse_congr (sbi ▸ new.layout) hbit) (c.others i ne) ?_) ?_
  · exact fun n hc hd => c.frame _ (hbno _ (h.index_apart ne hc).2) hd
  · exact fun b hb hd => c.frame b (hbno b (h.used hb).1.taken) hd

theorem Removed.same {ino : Nat} {freed : List Nat} (h : WorldInv w)
    (r : Removed w dir d ino freed w') (parent : LiveDir w dir d) (ne : i ≠ ino) : Same w w' i := by
  refine same_of_parent h parent (untouched_of_parent h parent r.up (r.inUse_iff ne)
    (r.others i ne) ?_) ?_
  · exact fun n hc => r.frame _ (h.index_apart ne hc).1
  · exact fun b hb => r.frame b (h.ledger.not_mem ne hb)

/-- An attempt that failed shows nothing. -/
theorem Abandoned.same (h : WorldInv w) (a : Abandoned w w') (i : Nat) : Same w w' i := by
  obtain ⟨_, hcache⟩ := a.settled h.blocks
  refine same_of_untouched ⟨?_, fun hc => by rw [hcache]; exact hc, fun n hc => ⟨n, by
    rw [hcache]
    exact hc, rfl, rfl, rfl, rfl, fun _ => by rw [a.disk]⟩⟩ fun _ _ _ _ _ => by rw [a.disk]
  rcases Nat.eq_zero_or_pos i with rfl | hpos
  · exact ⟨fun h => absurd h.1 (lt_irrefl 0), fun h => absurd h.1 (lt_irrefl 0)⟩
  · exact inUse_congr a.layout (a.inodes i hpos)

theorem Resumed.same (r : Resumed w w') (h : WorldInv w) (i : Nat) : Same w w' i := by
  refine ⟨fun node own => ?_, r.absent h, fun node _ _ b hb => r.disk b (h.used hb).2⟩
  obtain ⟨node', hl, hsame, _⟩ := r.live_to h own
  exact ⟨node', hl, hsame⟩

/-- The areas of the volume and its magic number. -/
structure Steady (w w' : World) : Prop where
  layout : SameLayout w.sbi w'.sbi
  magic : csb w'.disk 0 = csb w.disk 0

theorem steady_of_zero (layout : SameLayout w.sbi w'.sbi) (zero : w'.disk 0 = w.disk 0) :
    Steady w w' := by
  refine ⟨layout, ?_⟩
  unfold csb
  rw [zero]

theorem Steady.refl (w : World) : Steady w w := ⟨SameLayout.refl _, rfl⟩

/-- The superblock belongs to no inode. -/
theorem superblock_apart (h : WorldInv w) (own : live w i = some node) : 0 ≠ node.indexBlock :=
  Nat.ne_of_lt (h.used (index_mem_holds own)).1.pos

theorem Relinked.steady (r : Relinked w w') (h : WorldInv w) : Steady w w' := by
  refine steady_of_zero (r.sbi ▸ SameLayout.refl _) ?_
  rcases r.disk 0 with heq | ⟨j, n, hn, hzero⟩
  · exact heq
  · exact absurd hzero (superblock_apart h hn.live)

theorem Created.steady {ino bno mode : Nat} (h : WorldInv w) (c : Created w dir d ino bno mode w')
    (parent : LiveDir w dir d) : Steady w w' := by
  obtain ⟨w₁, new, sbi⟩ := c.new
  refine steady_of_zero (sbi ▸ new.layout) (c.frame 0 ?_ (superblock_apart h parent.live))
  rintro rfl
  have hfree := new.bno_free
  rw [h.blocks.zero_used] at hfree
  cases hfree

theorem Removed.steady {ino : Nat} {freed : List Nat} (h : WorldInv w)
    (r : Removed w dir d ino freed w') (parent : LiveDir w dir d) : Steady w w' :=
  steady_of_zero r.layout (r.frame 0 (fun hmem => Nat.lt_irrefl 0 (h.used hmem).1.pos)
    (superblock_apart h parent.live))

/-- Names that lead elsewhere, seen through the names that fit. -/
theorem update_name (f : List Byte → Option Nat) (name : Name) (x : Option Nat) :
    (fun m : Name => Function.update f name.1 x m.1) =
      Function.update (fun m : Name => f m.1) name x := by
  funext m
  by_cases hm : m = name
  · rw [hm, Function.update_self, Function.update_self]
  · rw [Function.update_of_ne hm, Function.update_of_ne fun heq => hm (Subtype.ext heq)]

theorem view_entries (h : VolumeInv w t) :
    (view w).entry = fun dir name => t.find dir name.1 := by
  funext dir name
  exact view_entry h dir name

/-- An entry of the tree that changes is an entry of the view that does. -/
theorem entry_update (f : Nat → List Byte → Option Nat) (dir : Nat) (name : Name)
    (x : Option Nat) :
    (fun e (m : Name) => Function.update f dir (Function.update (f dir) name.1 x) e m.1) =
      Function.update (fun e (m : Name) => f e m.1) dir
        (Function.update (fun m : Name => f dir m.1) name x) := by
  funext e
  by_cases he : e = dir
  · rw [he, Function.update_self, Function.update_self]
    exact update_name (f dir) name x
  · rw [Function.update_of_ne he, Function.update_of_ne he]

theorem view_eq_of_same (h : VolumeInv w t) (h' : VolumeInv w' t) (s : ∀ i, Same w w' i) :
    view w' = view w := by
  refine State.ext ?_ ?_ ?_
  · funext i
    exact (s i).kind h.world h'.world
  · rw [view_entries h, view_entries h']
  · funext i
    exact (s i).bytes h.world h'.world

theorem view_grown (h : VolumeInv w t) {ino bno mode : Nat} {es : List DirFile} {f : DirFile}
    {name : Name} (parent : LiveDir w dir d) (links : t.links dir = es.map link)
    (g : Grown w dir d name.1 mode es ino bno f w') :
    (view w).kind ino = none ∧ (view w).entry dir name = none ∧
      view w' = (view w).enter dir name ino (kindOf mode) := by
  have h' := h.grown parent links name.2 g
  obtain ⟨hin, hout, _⟩ := g.created.holds_eq
  obtain ⟨node, init, own⟩ := g.created.own
  have hlive : live w' ino = some node := live_eq_some.mpr ⟨hin, own⟩
  obtain ⟨hkind, hbytes⟩ := view_absent h.world hout
  have hfresh : name.1 ∉ t.names dir := by
    rw [names_eq links]
    exact g.fresh
  have hsame := fun i (hi : i ≠ ino) => Created.same h.world g.created parent hi
  refine ⟨hkind, ?_, State.ext ?_ ?_ ?_⟩
  · rw [view_entry h]
    exact follow_eq_none.mpr hfresh
  · funext i
    by_cases hi : i = ino
    · subst hi
      rw [view_kind h'.world hlive]
      refine Eq.trans ?_ (Function.update_self i (some (kindOf mode)) (view w).kind).symm
      rw [kindOf, kindOf, init.dir]
    · rw [(hsame i hi).kind h.world h'.world]
      exact (Function.update_of_ne hi _ _).symm
  · rw [view_entries h']
    change _ = Function.update (view w).entry dir (Function.update ((view w).entry dir) name _)
    rw [view_entries h, ← entry_update, find_add hfresh]
  · funext i
    by_cases hi : i = ino
    · subst hi
      change (view w').bytes i = (view w).bytes i
      rw [hbytes, view_bytes h'.world hlive]
      by_cases hdir : sIsdir node.iMode = true
      · exact if_pos hdir
      · rw [if_neg hdir, (Created.shape g.created init).content_eq]
        rfl
    · exact (hsame i hi).bytes h.world h'.world

theorem view_pruned (h : VolumeInv w t) {ino k : Nat} {es : List DirFile} {name : Name}
    (parent : LiveDir w dir d) (own : live w ino = some node) (links : t.links dir = es.map link)
    (at_ : (t.links dir)[k]? = some (ino, name.1)) (empty : t.links ino = [])
    (p : Pruned w dir d ino node es k w') : view w' = (view w).leave dir name ino := by
  have h' := h.pruned parent own links at_ empty p
  obtain ⟨freed, _, hr⟩ := p.removed
  obtain ⟨hkind, hbytes⟩ := view_absent h'.world (if_neg hr.not_inUse)
  have hsame := fun i (hi : i ≠ ino) => Removed.same h.world hr parent hi
  refine State.ext ?_ ?_ ?_
  · funext i
    by_cases hi : i = ino
    · subst hi
      exact hkind.trans (Function.update_self i none (view w).kind).symm
    · rw [(hsame i hi).kind h.world h'.world]
      exact (Function.update_of_ne hi _ _).symm
  · rw [view_entries h']
    change _ = Function.update (view w).entry dir (Function.update ((view w).entry dir) name _)
    rw [view_entries h, ← entry_update, h.tree.tree.find_remove at_]
  · funext i
    by_cases hi : i = ino
    · subst hi
      exact hbytes.trans (Function.update_self i [] (view w).bytes).symm
    · rw [(hsame i hi).bytes h.world h'.world]
      exact (Function.update_of_ne hi _ _).symm

/-- A renaming moves one name and nothing else. -/
theorem view_renamed (h : VolumeInv w t) {oldDir newDir src flags : Nat} {ciOld ciNew : Inode}
    {oldName newName : Name} {io : Io} {r : World × Int} (old : LiveDir w oldDir ciOld)
    (new : LiveDir w newDir ciNew) (found : t.find oldDir oldName.1 = some src)
    (room : oldDir ≠ newDir → nrEntries (w.disk ciOld.indexBlock) < maxSubfiles)
    (reads : io.NoReadFails)
    (run : ouichefsRename w io oldDir oldName.1 newDir newName.1 src flags = some r) :
    (∃ t', VolumeInv r.1 t') ∧ Steady w r.1 ∧
      Spec (view w) (.rename oldDir oldName newDir newName r.2) (view r.1) := by
  rcases h.rename_cases old new oldName.2 newName.2 found room reads run with
    ⟨hneg, heq⟩ | ⟨hzero, hfresh, hrel, k, hat, hcases⟩
  · rw [heq]
    exact ⟨⟨t, h⟩, Steady.refl w, Or.inl ⟨hneg, rfl⟩⟩
  have hdir : (view w).kind newDir = some .directory := by
    rw [view_kind h.world new.live, kindOf, if_pos new.type]
  have hfree : (view w).entry newDir newName = none := by
    rw [view_entry h]
    exact follow_eq_none.mpr hfresh
  have hsrc : (view w).entry oldDir oldName = some src := (view_entry h _ _).trans found
  have hsame := Relinked.same hrel h.world
  have hsteady := Relinked.steady hrel h.world
  have hview : ∀ t', VolumeInv r.1 t' →
      t'.find = Function.update (Function.update t.find oldDir
        (Function.update (t.find oldDir) oldName.1 none)) newDir
        (Function.update (Function.update t.find oldDir
          (Function.update (t.find oldDir) oldName.1 none) newDir) newName.1 (some src)) →
      view r.1 = ((view w).name oldDir oldName none).name newDir newName (some src) := by
    intro t' h' hfind
    refine State.ext ?_ ?_ ?_
    · funext i
      exact (hsame i).kind h.world h'.world
    · have hfirst : (fun e (m : Name) => Function.update t.find oldDir
          (Function.update (t.find oldDir) oldName.1 none) e m.1) =
          ((view w).name oldDir oldName none).entry := by
        rw [entry_update]
        change _ = Function.update (view w).entry oldDir _
        rw [view_entries h]
      have hnew : (fun m : Name => Function.update t.find oldDir
          (Function.update (t.find oldDir) oldName.1 none) newDir m.1) =
          ((view w).name oldDir oldName none).entry newDir := congrFun hfirst newDir
      rw [view_entries h', hfind, entry_update, hfirst, hnew]
      rfl
    · funext i
      exact (hsame i).bytes h.world h'.world
  rcases hcases with ⟨rfl, h'⟩ | ⟨hne, h'⟩
  · refine ⟨⟨_, h'⟩, hsteady, Or.inr ⟨hzero, hdir, hfree, src, hsrc, hview _ h' ?_⟩⟩
    rw [h.tree.tree.find_rename hat hfresh, Function.update_self, Function.update_idem]
  · refine ⟨⟨_, h'⟩, hsteady, Or.inr ⟨hzero, hdir, hfree, src, hsrc, hview _ h' ?_⟩⟩
    rw [h.tree.tree.find_move hat hfresh, Function.update_of_ne (Ne.symm hne)]

section

variable {es es' : List Word} {s : Ctx}

theorem effect_steady (h : WorldInv w) (own : live w i = some node)
    (reg : sIsreg node.iMode = true) (hholds : holds w i = node.indexBlock :: numbers es)
    (e : Effect (w.ctx node calmIo) es s es') : Steady w (w.withCtx i s) := by
  refine steady_of_zero e.layout ((isolated_of_effect h own reg hholds e).metadata 0 ?_)
  unfold metaEnd
  omega

/-- What users see of a call on a file are its bytes. -/
theorem view_effect (h : VolumeInv w t) (own : live w i = some node)
    (reg : sIsreg node.iMode = true) (hholds : holds w i = node.indexBlock :: numbers es)
    (e : Effect (w.ctx node calmIo) es s es') :
    view (w.withCtx i s) = (view w).store i (bytesOf s.disk es') := by
  have h' := h.effect own reg hholds e
  have hisolated := isolated_of_effect h.world own reg hholds e
  have hmode : s.node.iMode = node.iMode := e.mode
  have hin : InUse s.sbi i := (inUse_congr e.layout (by rw [e.inodes])).mpr (live_eq_some.mp own).1
  have hlive := (holds_withCtx (w := w) hin e.inv.shape (by rw [hmode]; exact reg)).1
  have hfile : ¬ sIsdir s.node.iMode = true := by
    intro hdir
    rw [hmode] at hdir
    rw [sIsreg_of_sIsdir hdir] at reg
    cases reg
  have hbytes : (view (w.withCtx i s)).bytes i = bytesOf s.disk es' := by
    rw [view_bytes h'.world hlive, if_neg hfile]
    have hshape : Shape ((w.withCtx i s).ctx s.node calmIo) es' :=
      e.inv.shape.congr (fun _ _ => rfl) rfl rfl
    exact hshape.content_eq
  refine State.ext ?_ ?_ ?_
  · funext j
    change (view (w.withCtx i s)).kind j = (view w).kind j
    by_cases hj : j = i
    · subst hj
      rw [view_kind h'.world hlive, view_kind h.world own, hmode]
    · cases hl : live w j with
      | none => rw [(view_absent h.world hl).1, (view_absent h'.world
          ((hisolated.live j hj).trans hl)).1]
      | some n => rw [view_kind h.world hl, view_kind h'.world ((hisolated.live j hj).trans hl)]
  · change (view (w.withCtx i s)).entry = (view w).entry
    rw [view_entries h, view_entries h']
  · funext j
    by_cases hj : j = i
    · subst hj
      exact hbytes.trans (Function.update_self j _ (view w).bytes).symm
    · refine Eq.trans ?_ (Function.update_of_ne hj _ (view w).bytes).symm
      cases hl : live w j with
      | none => rw [(view_absent h.world hl).2, (view_absent h'.world
          ((hisolated.live j hj).trans hl)).2]
      | some n =>
        rw [view_bytes h.world hl, view_bytes h'.world ((hisolated.live j hj).trans hl)]
        by_cases hdir : sIsdir n.iMode = true
        · rw [if_pos hdir, if_pos hdir]
        · rw [if_neg hdir, if_neg hdir]
          exact hisolated.content j n hj hl ((h.world.sound j n hl).type.resolve_left hdir)

/-- The bytes of a live file. -/
theorem view_file (h : WorldInv w) (own : live w i = some node) (reg : sIsreg node.iMode = true)
    (inv : FileInv (w.ctx node calmIo) es) : (view w).bytes i = bytesOf w.disk es := by
  have hfile : ¬ sIsdir node.iMode = true := by
    intro hdir
    rw [sIsreg_of_sIsdir hdir] at reg
    cases reg
  rw [view_bytes h own, if_neg hfile]
  exact inv.shape.content_eq

theorem write_refines (h : VolumeInv w t) (own : live w i = some node)
    (reg : sIsreg node.iMode = true) (io : Io) (fFlags pos : Nat) (data : List Byte)
    {r : WriteResult} (run : ouichefsLightWrite (w.ctx node io) fFlags data pos = r) :
    VolumeInv (w.withCtx i r.ctx) t ∧ Steady w (w.withCtx i r.ctx) ∧
      SameInodes w.sbi r.ctx.sbi ∧ Spec (view w) (.write i (startPos (w.ctx node io) fFlags pos) data
        (r.pos - startPos (w.ctx node io) fFlags pos) r.ret) (view (w.withCtx i r.ctx)) := by
  obtain ⟨es, hinv, hholds⟩ := h.world.fileInv own reg calmIo
  have hio := hinv.withIo io
  obtain ⟨fresh, es', g, m, hw⟩ := ouichefsLightWrite_spec (s := w.ctx node io) hio.shape
    hio.held hio.size fFlags (addressable_of_small hio.small _)
  rw [run] at hw
  have heff : Effect (w.ctx node calmIo) es r.ctx es' := Effect.ofIo (Written.effect hw hio)
  have htotal : (bytesOf w.disk es).length = total es := bytesOf_length _ _
  refine ⟨h.effect own reg hholds heff, effect_steady h.world own reg hholds heff,
    ⟨hw.allocated.layout.nrInodes, hw.allocated.inodes.1, hw.allocated.inodes.2⟩, fun hret => ?_,
    bytesOf r.ctx.disk es', ?_, view_effect h own reg hholds heff⟩
  · rw [hw.ret hret, hw.pos]
    omega
  · rw [view_file h.world own reg hinv, hw.pos, Nat.add_sub_cancel_left]
    refine ⟨hw.le, g, ?_, ?_, hw.bytes⟩
    · rw [htotal]
      exact hw.gap
    · rw [htotal]
      exact hw.filled

/-- A defragmentation whose copies stay apart keeps the bytes. -/
theorem compact_refines (h : VolumeInv w t) (own : live w i = some node)
    (reg : sIsreg node.iMode = true) (io : Io) (fuel : Nat) {r : Ctx × Int}
    (run : ouichefsDefrag fuel (w.ctx node io) = some r) :
    VolumeInv (w.withCtx i r.1) t ∧ Steady w (w.withCtx i r.1) ∧ SameInodes w.sbi r.1.sbi ∧
      Spec (view w) (.compact i (decide (Drainable (w.ctx node io))) r.2)
        (view (w.withCtx i r.1)) := by
  obtain ⟨es, hinv, hholds⟩ := h.world.fileInv own reg calmIo
  have hio := hinv.withIo io
  obtain ⟨es', htidied, _⟩ := defrag_tidied hio run
  have heff : Effect (w.ctx node calmIo) es r.1 es' := Effect.ofIo htidied.effect
  refine ⟨h.effect own reg hholds heff, effect_steady h.world own reg hholds heff,
    ⟨htidied.effect.layout.nrInodes, htidied.effect.inodes, htidied.inodeCount⟩,
    bytesOf r.1.disk es', ?_, fun hkeeps => ?_, view_effect h own reg hholds heff⟩
  · rw [view_file h.world own reg hinv, bytesOf_length, bytesOf_length, htidied.size]
  · rw [view_file h.world own reg hinv]
    exact htidied.bytes (of_decide_eq_true hkeeps)

end

/-- Whatever fails, the copy loop collects a prefix of what it would without
failures, and changes nothing. -/
theorem lightReadLoop_prefix (before : Nat → Byte) (L : List Word) :
    ∀ (s : Ctx) (k lp remaining : Nat),
      (∀ i, i < L.length → s.blocks (k + i) = L[i]?.getD 0) →
      (∀ e, L.head? = some e → lp ≤ getBlockSize e) →
      (lightReadLoop before L.length s k lp remaining).2 <+: gather s.disk L lp remaining ∧
        (lightReadLoop before L.length s k lp remaining).1.disk = s.disk ∧
        (lightReadLoop before L.length s k lp remaining).1.node = s.node ∧
        (lightReadLoop before L.length s k lp remaining).1.sbi = s.sbi := by
  induction L with
  | nil =>
    intro s k lp remaining _ _
    exact ⟨List.nil_prefix, rfl, rfl, rfl⟩
  | cons e L ih =>
    intro s k lp remaining hblocks hlp
    have hk : (s.touch k).blocks k = e := by
      have hslot : s.blocks k = e := by simpa using hblocks 0 (by simp)
      exact hslot
    have hle : lp ≤ getBlockSize e := hlp e rfl
    have hs := getBlockSize_le e
    have havail : u64 ((getBlockSize e : Int) - lp) = getBlockSize e - lp := u64_sub hle (by omega)
    rw [List.length_cons, lightReadLoop, gather]
    by_cases hrem : remaining = 0
    · rw [if_pos hrem]
      exact ⟨List.nil_prefix, rfl, rfl, rfl⟩
    rw [if_neg hrem]
    simp only [hk, havail]
    by_cases hread : (s.touch k).io.bread 0 = false
    · rw [if_pos hread]
      exact ⟨List.nil_prefix, rfl, rfl, rfl⟩
    rw [if_neg hread]
    by_cases hdry : getBlockSize e - lp = 0
    · rw [if_pos hdry]
      exact ⟨List.nil_prefix, rfl, rfl, rfl⟩
    rw [if_neg hdry, if_neg (not_or.mpr ⟨hrem, hdry⟩)]
    by_cases hcopy : (s.touch k).popBread.io.ucopy 0 ≠ none
    · rw [if_pos hcopy]
      exact ⟨List.nil_prefix, rfl, rfl, rfl⟩
    rw [if_neg hcopy]
    obtain ⟨hdata, hdisk, hnode, hsbi⟩ := ih (s.touch k).popBread.popUcopy (k + 1) 0
      (remaining - min (getBlockSize e - lp) remaining)
      (by
        intro i hi
        have hslot : s.blocks (k + (i + 1)) = L[i]?.getD 0 := hblocks (i + 1) (by simpa using hi)
        rw [show k + 1 + i = k + (i + 1) by omega]
        exact hslot)
      (fun _ _ => Nat.zero_le _)
    refine ⟨?_, hdisk, hnode, hsbi⟩
    rw [peek_eq_slice]
    exact (List.prefix_append_right_inj _).mpr hdata

theorem read_refines (h : VolumeInv w t) (own : live w i = some node)
    (reg : sIsreg node.iMode = true) (before : Nat → Byte) (io : Io) (fFlags size : Nat) {pos : Nat}
    (small : pos < 2147483648) {r : ReadResult}
    (run : ouichefsLightRead before (w.ctx node io) fFlags size pos = r) :
    w.withCtx i r.ctx = w ∧ Spec (view w) (.read i pos size r.data) (view w) := by
  obtain ⟨es, hinv, hholds⟩ := h.world.fileInv own reg calmIo
  have hio := hinv.withIo io
  have hc := (live_eq_some.mp own).2
  have hback : ∀ {s : Ctx}, s.disk = w.disk → s.node = node → s.sbi = w.sbi →
      w.withCtx i s = w := by
    intro s hdisk hnode hsbi
    have hcache : (fun j => if j = i then some s.node else w.icache j) = w.icache := by
      funext j
      by_cases hj : j = i
      · rw [if_pos hj, hj, hnode, hc]
      · rw [if_neg hj]
    unfold World.withCtx World.cache
    simp only [hcache, hdisk, hsbi]
  have hnil : ∀ {s : Ctx}, s.disk = w.disk → s.node = node → s.sbi = w.sbi →
      w.withCtx i s = w ∧ Spec (view w) (.read i pos size []) (view w) := fun h₁ h₂ h₃ =>
    ⟨hback h₁ h₂ h₃, Nat.zero_le _, List.nil_prefix, rfl⟩
  subst run
  unfold ouichefsLightRead
  by_cases hflags : readFlags fFlags = false
  · rw [if_pos hflags]
    exact hnil rfl rfl rfl
  rw [if_neg hflags]
  by_cases hindex : (w.ctx node io).io.bread 0 = false
  · rw [if_pos hindex]
    exact hnil rfl rfl rfl
  rw [if_neg hindex]
  simp only
  have hpop : Shape (w.ctx node io).popBread es := hio.shape.congr (fun _ _ => rfl) rfl rfl
  by_cases hle : pos ≤ total es
  · obtain ⟨A, L, p, hsplit, hcut, hfound⟩ := findBlockPos_cut hpop hle
    rw [hfound]
    simp only
    rw [count_behind hpop hsplit]
    obtain ⟨hdata, hdisk, hnode, hsbi⟩ := lightReadLoop_prefix before L (w.ctx node io).popBread
      A.length p size (blocks_behind hpop hsplit) hcut.le_head
    obtain ⟨hstart, hlen⟩ := gather_starts w.disk L p size hcut.le_head
    refine ⟨hback hdisk hnode hsbi, hdata.length_le.trans hlen, ?_, rfl⟩
    rw [view_file h.world own reg hinv, ← hcut.prefix_content w.disk]
    exact hdata.trans hstart
  · rw [Search.findBlockPos_none hpop (by omega) small]
    exact hnil rfl rfl rfl

/-- A volume in memory, with the inodes that `mark_inode_dirty` has marked since they
were last written. -/
structure Mount where
  world : World
  dirty : Nat → Bool

/-- A volume whose inodes all stand on the disk, as after a mount. -/
def clean (w : World) : Mount := ⟨w, fun _ => false⟩

def mark (is : List Nat) (dirty : Nat → Bool) : Nat → Bool := fun i => decide (i ∈ is) || dirty i

def unmark (ino : Nat) (dirty : Nat → Bool) : Nat → Bool := fun i => decide (i ≠ ino) && dirty i

/-- One call on a mounted volume as the VFS makes it: new names are not found, old
ones are, and an entry leaves its directory for another one only if that directory
is not full. No read of a directory fails; of the calls on files any read and any
copy may fail, at any place. Each call is labelled with what it was given and what it
returned. In between marked inodes and the superblock information are written back at
any time, and the volume may be unmounted and mounted again: then the marked inodes are
written, and any others have to stand on the disk already. -/
inductive FsStep : Mount → Call Nat Name Byte → Mount → Prop
  | lookup (w : World) (dirty : Nat → Bool) (who : Caller) (io : Io) (dir : Nat) (d : Inode)
      (name : Name) (r : World × Except Int (Option Nat)) :
      LiveDir w dir d → io.NoReadFails → ouichefsLookup w who io dir name.1 = some r →
      FsStep ⟨w, dirty⟩ (.lookup dir name r.2) ⟨r.1, mark [dir] dirty⟩
  | create (w : World) (dirty : Nat → Bool) (who : Caller) (io : Io) (dir : Nat) (d : Inode)
      (name : Name) (mode : Nat) (r : World × Int) :
      LiveDir w dir d → lookupLoop (w.disk d.indexBlock) name.1 maxSubfiles 0 = none →
      io.NoReadFails → ouichefsCreate w who io dir name.1 mode = some r →
      FsStep ⟨w, dirty⟩ (.create dir name (kindOf mode) r.2)
        ⟨r.1, mark (if r.2 = 0 then [(getFreeInode w.sbi).1, dir] else []) dirty⟩
  | mkdir (w : World) (dirty : Nat → Bool) (who : Caller) (io : Io) (dir : Nat) (d : Inode)
      (name : Name) (mode : Nat) (r : World × Int) :
      LiveDir w dir d → lookupLoop (w.disk d.indexBlock) name.1 maxSubfiles 0 = none →
      io.NoReadFails → ouichefsMkdir w who io dir name.1 mode = some r →
      FsStep ⟨w, dirty⟩ (.create dir name (kindOf (mode ||| sIfdir)) r.2)
        ⟨r.1, mark (if r.2 = 0 then [(getFreeInode w.sbi).1, dir] else []) dirty⟩
  | unlink (w : World) (dirty : Nat → Bool) (io : Io) (dir ino : Nat) (d node : Inode) (name : Name)
      (r : World × Int) :
      LiveDir w dir d → lookupLoop (w.disk d.indexBlock) name.1 maxSubfiles 0 = some ino →
      live w ino = some node → sIsreg node.iMode = true → io.NoReadFails →
      ouichefsUnlink w io dir ino = some r →
      FsStep ⟨w, dirty⟩ (.remove dir name ino .file r.2)
        ⟨r.1, mark (if r.2 = 0 then [dir, ino] else []) dirty⟩
  | rmdir (w : World) (dirty : Nat → Bool) (io : Io) (dir ino : Nat) (d node : Inode) (name : Name)
      (r : World × Int) :
      LiveDir w dir d → lookupLoop (w.disk d.indexBlock) name.1 maxSubfiles 0 = some ino →
      LiveDir w ino node → io.NoReadFails → ouichefsRmdir w io dir ino = some r →
      FsStep ⟨w, dirty⟩ (.remove dir name ino .directory r.2)
        ⟨r.1, mark (if r.2 = 0 then [dir, ino] else []) dirty⟩
  | rename (w : World) (dirty : Nat → Bool) (io : Io) (oldDir newDir src flags : Nat)
      (ciOld ciNew : Inode) (oldName newName : Name) (r : World × Int) :
      LiveDir w oldDir ciOld → LiveDir w newDir ciNew →
      lookupLoop (w.disk ciOld.indexBlock) oldName.1 maxSubfiles 0 = some src →
      (oldDir ≠ newDir → nrEntries (w.disk ciOld.indexBlock) < maxSubfiles) → io.NoReadFails →
      ouichefsRename w io oldDir oldName.1 newDir newName.1 src flags = some r →
      FsStep ⟨w, dirty⟩ (.rename oldDir oldName newDir newName r.2)
        ⟨r.1, mark (if r.2 = 0 ∧ oldDir ≠ newDir then [newDir, oldDir] else []) dirty⟩
  | read (w : World) (dirty : Nat → Bool) (before : Nat → Byte) (io : Io) (ino : Nat) (node : Inode)
      (fFlags size pos : Nat) (r : ReadResult) :
      live w ino = some node → sIsreg node.iMode = true → pos < 2147483648 →
      ouichefsLightRead before (w.ctx node io) fFlags size pos = r →
      FsStep ⟨w, dirty⟩ (.read ino pos size r.data) ⟨w.withCtx ino r.ctx, dirty⟩
  | write (w : World) (dirty : Nat → Bool) (io : Io) (ino : Nat) (node : Inode) (fFlags pos : Nat)
      (data : List Byte) (r : WriteResult) :
      live w ino = some node → sIsreg node.iMode = true →
      ouichefsLightWrite (w.ctx node io) fFlags data pos = r →
      FsStep ⟨w, dirty⟩ (.write ino (startPos (w.ctx node io) fFlags pos) data
        (r.pos - startPos (w.ctx node io) fFlags pos) r.ret)
        ⟨w.withCtx ino r.ctx,
          mark (if 0 < r.pos - startPos (w.ctx node io) fFlags pos then [ino] else []) dirty⟩
  | defrag (w : World) (dirty : Nat → Bool) (io : Io) (ino fuel : Nat) (node : Inode)
      (r : Ctx × Int) :
      live w ino = some node → sIsreg node.iMode = true →
      ouichefsDefrag fuel (w.ctx node io) = some r →
      FsStep ⟨w, dirty⟩ (.compact ino (decide (Drainable (w.ctx node io))) r.2)
        ⟨w.withCtx ino r.1, mark (if r.2 = 0 then [ino] else []) dirty⟩
  | writeInode (w : World) (dirty : Nat → Bool) (ok : Bool) (ino : Nat) (node : Inode) :
      w.icache ino = some node → dirty ino = true →
      FsStep ⟨w, dirty⟩ .flush ⟨(ouichefsWriteInode w ok ino node).1, unmark ino dirty⟩
  | syncFs (w : World) (dirty : Nat → Bool) (readable : Nat → Bool) :
      FsStep ⟨w, dirty⟩ .flush ⟨synced w readable, dirty⟩
  | remount (w w' : World) (dirty : Nat → Bool) (who : Caller) (readable : Nat → Bool)
      (written loaded : List Nat) :
      (∀ i, InUse w.sbi i → (i ∈ written ↔ dirty i = true)) →
      (∀ i ∈ written, ∀ n, live w i = some n → NodeFits n) →
      (∀ i, i ∉ written → ∀ n, live w i = some n → Recorded w i n) →
      (∀ b, readable b = true) → who.memory = true → (∀ i, i ∈ loaded ↔ InUse w.sbi i) →
      remount who readable (fun _ => true) written loaded w = .ok w' →
      FsStep ⟨w, dirty⟩ .flush (clean w')

theorem create_refines (h : VolumeInv w t) {who : Caller} {io : Io} {mode : Nat} {name : Name}
    {r : World × Int} (parent : LiveDir w dir d)
    (absent : lookupLoop (w.disk d.indexBlock) name.1 maxSubfiles 0 = none)
    (reads : io.NoReadFails) (run : ouichefsCreate w who io dir name.1 mode = some r) :
    (∃ t', VolumeInv r.1 t') ∧ Steady w r.1 ∧
      Spec (view w) (.create dir name (kindOf mode) r.2) (view r.1) := by
  obtain ⟨_, _, es, hes, hlinks⟩ := h.directory parent
  rcases h.create_cases parent name.2 hes absent reads run with
    ⟨hneg, habandoned⟩ | ⟨hzero, ino, bno, f, hgrown⟩
  · have h' : VolumeInv r.1 t := by
      refine ⟨habandoned.inv h.world, ?_, h.names⟩
      have hollowed : Abandoned (hollow w) (hollow r.1) → Represents (hollow r.1) t :=
        h.tree.abandoned
      refine hollowed ⟨habandoned.layout, habandoned.inodes, habandoned.taken, habandoned.disk,
        ?_, ?_⟩
      · exact fun i hi => hollow_icache_congr (habandoned.icache i hi)
      · intro hok
        obtain ⟨hblocks, hcache⟩ := habandoned.settled hok
        exact ⟨hblocks, funext fun i => hollow_icache_congr (congrFun hcache i)⟩
    exact ⟨⟨t, h'⟩, steady_of_zero habandoned.layout (by rw [habandoned.disk]),
      Or.inl ⟨hneg, view_eq_of_same h h' (Abandoned.same h.world habandoned)⟩⟩
  · obtain ⟨hkind, hfresh, hview⟩ := view_grown h parent hlinks hgrown
    have hdir : (view w).kind dir = some .directory := by
      rw [view_kind h.world parent.live, kindOf, if_pos parent.type]
    exact ⟨⟨_, h.grown parent hlinks name.2 hgrown⟩,
      Created.steady h.world hgrown.created parent, Or.inr ⟨hzero, hdir, hfresh, ino, hkind, hview⟩⟩

theorem unlink_refines (h : VolumeInv w t) {io : Io} {ino : Nat} {name : Name} {r : World × Int}
    (parent : LiveDir w dir d) (found : t.find dir name.1 = some ino)
    (own : live w ino = some node) (empty : t.links ino = []) (reads : io.NoReadFails)
    (run : ouichefsUnlink w io dir ino = some r) :
    (∃ t', VolumeInv r.1 t') ∧ Steady w r.1 ∧
      Spec (view w) (.remove dir name ino (kindOf node.iMode) r.2) (view r.1) := by
  obtain ⟨_, _, es, hes, hlinks⟩ := h.directory parent
  have hne : ino ≠ dir := by
    rintro rfl
    have := h.found found
    rw [empty] at this
    cases this
  obtain ⟨hzero, k, f, hf, hino, hpruned⟩ := h.pruned_of_run parent own hne hes reads run
  have hat : (t.links dir)[k]? = some (ino, nameOf f) := hino ▸ links_at hlinks hf
  rw [h.name_eq found hat] at hat
  obtain ⟨freed, _, hremoved⟩ := hpruned.removed
  refine ⟨⟨_, h.pruned parent own hlinks hat empty hpruned⟩,
    Removed.steady h.world hremoved parent, (view_entry h dir name).trans found,
    view_kind h.world own, Or.inr ⟨hzero, fun m => ?_,
      view_pruned h parent own hlinks hat empty hpruned⟩⟩
  rw [view_entry h]
  unfold Tree.find
  rw [empty]
  rfl

/-- A mounted volume in order. -/
structure Session (w : World) : Prop where
  volume : ∃ t, VolumeInv w t
  counted : OneTooMany w.sbi
  areas : Areas w.sbi
  magic : csb w.disk 0 = ouichefsMagic
  root : (view w).kind 1 = some .directory

/-- The root has no name. -/
theorem root_unnamed (h : VolumeInv w t) (dir : Nat) (name : Name) :
    (view w).entry dir name ≠ some 1 := by
  intro hat
  rw [view_entry h] at hat
  exact (h.tree.tree.ledger.held dir 1 (List.mem_map_of_mem (f := Prod.fst) (h.found hat))).2.2 rfl

theorem filed_refines (h : VolumeInv w t) (areas : Areas w.sbi) (f : Filed w w') :
    VolumeInv w' t ∧ view w' = view w := by
  have hresumed := f.resumed h.world
  have h' := hresumed.volume h areas
  exact ⟨h', view_eq_of_same h h' (Resumed.same hresumed h.world)⟩

/-- A volume that is mounted again shows the same, already before any of its inodes
but the root has been fetched. -/
theorem remount_refines {written loaded : List Nat} (h : VolumeInv w t) (s : Storable w written)
    {who : Caller} {readable : Nat → Bool} (reads : ∀ b, readable b = true)
    (mem : who.memory = true) (used : ∀ i, i ∈ loaded ↔ InUse w.sbi i) :
    ∃ m, ouichefsFillSuper (unmount written readable w) who readable (fun _ => true) = .ok m ∧
      remount who readable (fun _ => true) written loaded w = .ok (load who loaded m) ∧
      view m = view w ∧ Resumed w (load who loaded m) ∧ (load who loaded m).sbi = m.sbi ∧
      VolumeInv (load who loaded m) t ∧ Steady w (load who loaded m) ∧
      view (load who loaded m) = view w ∧
      ∀ i n, live (load who loaded m) i = some n → Recorded (load who loaded m) i n := by
  obtain ⟨m, hm, hrun, hresumed, hnode, hmagic, hdisk, hsbi, hrecorded⟩ :=
    remount_spec h s reads mem used
  have h' := hresumed.volume h s.areas
  have hview := view_eq_of_same h h' (Resumed.same hresumed h.world)
  have hinode : ∀ i, inodeOf m i = inodeOf (load who loaded m) i := by
    intro i
    unfold inodeOf
    rw [hsbi]
    by_cases hin : InUse m.sbi i
    · rw [if_pos hin, if_pos hin, hnode i ((hresumed.inUse i).mp (hsbi ▸ hin))]
      rfl
    · rw [if_neg hin, if_neg hin]
  refine ⟨m, hm, hrun, ?_, hresumed, hsbi, h', ⟨hresumed.layout, ?_⟩, hview, hrecorded⟩
  · rw [← hview]
    unfold view
    simp only [hinode, World.ctx, hdisk, hsbi]
  · rw [hdisk, hmagic, s.magic]

/-- The counter of free inodes is below its bound. -/
theorem storable {written : List Nat} (areas : Areas w.sbi) (magic : csb w.disk 0 = ouichefsMagic)
    (counted : OneTooMany w.sbi) (fit : ∀ i ∈ written, ∀ n, live w i = some n → NodeFits n)
    (recorded : ∀ i, i ∉ written → ∀ n, live w i = some n → Recorded w i n) :
    Storable w written := by
  refine ⟨areas, magic, fit, recorded, ?_⟩
  have hle := popcount_le w.sbi.ifreeBitmap w.sbi.nrInodes
  have hrange := counted.range
  rw [counted.counter]
  omega

theorem Resumed.oneTooMany (r : Resumed w w') (areas : Areas w.sbi) (o : OneTooMany w.sbi) :
    OneTooMany w'.sbi := by
  have hroot := areas.root
  constructor
  · rw [r.inodes 0 (by omega)]
    exact o.zero_used
  · rw [r.layout.nrInodes]
    exact o.range
  · rw [r.inodeCount, r.layout.nrInodes, o.counter]
    exact congrArg (· + 1) (popcount_congr fun i hi => (r.inodes i hi).symm)

theorem FsStep.counted {m m' : Mount} {call : Call Nat Name Byte} (h : VolumeInv m.world t)
    (areas : Areas m.world.sbi) (magic : csb m.world.disk 0 = ouichefsMagic)
    (o : OneTooMany m.world.sbi) (step : FsStep m call m') : OneTooMany m'.world.sbi := by
  cases step with
  | lookup w dirty who io dir d name r own reads run =>
    obtain ⟨_, hrel, _⟩ := h.lookup own name.2 reads run
    rw [hrel.sbi]
    exact o
  | create w dirty who io dir d name mode r _ _ _ run => exact ouichefsCreate_oneTooMany o run
  | mkdir w dirty who io dir d name mode r _ _ _ run => exact ouichefsCreate_oneTooMany o run
  | unlink w dirty io dir ino d node name r _ _ own _ _ run => exact ouichefsUnlink_oneTooMany o own run
  | rmdir w dirty io dir ino d node name r _ _ own _ run => exact ouichefsRmdir_oneTooMany o own.live run
  | rename w dirty io oldDir newDir src flags ciOld ciNew oldName newName r old new found room reads run =>
    rcases h.rename_cases old new oldName.2 newName.2
      ((h.lookup_eq old oldName.2).symm.trans found) room reads run with ⟨_, heq⟩ | ⟨_, _, hrel, _⟩
    · rw [heq]
      exact o
    · rw [hrel.sbi]
      exact o
  | read w dirty before io ino node fFlags size pos r own reg small run =>
    rw [(read_refines h own reg before io fFlags size small run).1]
    exact o
  | write w dirty io ino node fFlags pos data r own reg run =>
    exact (write_refines h own reg io fFlags pos data run).2.2.1.oneTooMany o
  | defrag w dirty io ino fuel node r own reg run =>
    exact (compact_refines h own reg io fuel run).2.2.1.oneTooMany o
  | writeInode w dirty ok ino node hc hdirty =>
    rw [(writeInode_filed areas ok ino node).sbi]
    exact o
  | syncFs w dirty readable => exact o
  | remount w w' dirty who readable written loaded all fit recorded reads mem used run =>
    obtain ⟨m, _, hrun, _, hresumed, _⟩ :=
      remount_refines h (storable areas magic o fit recorded) reads mem used
    rw [run] at hrun
    cases hrun
    exact Resumed.oneTooMany hresumed areas o

theorem FsStep.refines {m m' : Mount} {call : Call Nat Name Byte} (s : Session m.world)
    (step : FsStep m call m') : Session m'.world ∧ Steady m.world m'.world ∧
      Spec (view m.world) call (view m'.world) := by
  obtain ⟨⟨t, h⟩, counted, areas, magic, root⟩ := s
  suffices hstep : (∃ t', VolumeInv m'.world t') ∧ Steady m.world m'.world ∧
      Spec (view m.world) call (view m'.world) by
    obtain ⟨h', steady, spec⟩ := hstep
    exact ⟨⟨h', step.counted h areas magic counted, areas.congr steady.layout, steady.magic.trans magic,
      spec.kind_unnamed root (root_unnamed h)⟩, steady, spec⟩
  cases step with
  | lookup w dirty who io dir d name r own reads run =>
    obtain ⟨h', hrel, hfound⟩ := h.lookup own name.2 reads run
    refine ⟨⟨t, h'⟩, Relinked.steady hrel h.world, ?_,
      view_eq_of_same h h' (Relinked.same hrel h.world)⟩
    rw [hfound, view_entry h]
  | create w dirty who io dir d name mode r parent absent reads run =>
    exact create_refines h parent absent reads run
  | mkdir w dirty who io dir d name mode r parent absent reads run =>
    exact create_refines h parent absent reads run
  | unlink w dirty io dir ino d node name r parent found own reg reads run =>
    have hfile : sIsdir node.iMode = false := by
      by_contra hdir
      rw [sIsreg_of_sIsdir (by simpa using hdir)] at reg
      cases reg
    have hempty := h.tree.tree.leaf ino ((h.folder own).trans hfile)
    have := unlink_refines h parent ((h.lookup_eq parent name.2).symm.trans found) own hempty reads
      run
    rwa [kindOf, hfile] at this
  | rmdir w dirty io dir ino d node name r parent found own reads run =>
    have hfind := (h.lookup_eq parent name.2).symm.trans found
    have hkind : kindOf node.iMode = .directory := if_pos own.type
    rcases h.rmdir_cases own reads run with ⟨hneg, heq, hne⟩ | ⟨hempty, hrun⟩
    · refine ⟨heq ▸ ⟨t, h⟩, by rw [heq]; exact Steady.refl w, (view_entry h dir name).trans hfind, ?_,
        Or.inl ⟨hneg, ?_, by rw [heq]⟩⟩
      · rw [view_kind h.world own.live, hkind]
      · obtain ⟨p, l, hl⟩ := List.exists_cons_of_ne_nil hne
        have hmem : p ∈ t.links ino := by
          rw [hl]
          exact List.mem_cons_self
        refine ⟨⟨p.2, h.names ino p.2 (List.mem_map_of_mem hmem)⟩, ?_⟩
        rw [view_entry h]
        intro hnone
        exact follow_eq_none.mp hnone (List.mem_map_of_mem hmem)
    · have := unlink_refines h parent hfind own.live hempty (fun n => reads (n + 1)) hrun
      rwa [hkind] at this
  | rename w dirty io oldDir newDir src flags ciOld ciNew oldName newName r old new found room reads run =>
    exact view_renamed h old new ((h.lookup_eq old oldName.2).symm.trans found) room reads run
  | read w dirty before io ino node fFlags size pos r own reg small run =>
    obtain ⟨hsame, hspec⟩ := read_refines h own reg before io fFlags size small run
    rw [hsame]
    exact ⟨⟨t, h⟩, Steady.refl w, hspec⟩
  | write w dirty io ino node fFlags pos data r own reg run =>
    obtain ⟨h', hsteady, _, hspec⟩ := write_refines h own reg io fFlags pos data run
    exact ⟨⟨t, h'⟩, hsteady, hspec⟩
  | defrag w dirty io ino fuel node r own reg run =>
    obtain ⟨h', hsteady, _, hspec⟩ := compact_refines h own reg io fuel run
    exact ⟨⟨t, h'⟩, hsteady, hspec⟩
  | writeInode w dirty ok ino node hc hdirty =>
    have hfiled := writeInode_filed areas ok ino node
    obtain ⟨h', hview⟩ := filed_refines h areas hfiled
    refine ⟨⟨t, h'⟩, ⟨hfiled.sbi ▸ SameLayout.refl _, ?_⟩, hview⟩
    exact writeInode_magic w ok ino node
  | syncFs w dirty readable =>
    obtain ⟨h', hview⟩ := filed_refines h areas (syncFs_filed areas readable)
    exact ⟨⟨t, h'⟩, ⟨SameLayout.refl _, csb_zero_synced areas readable⟩, hview⟩
  | remount w w' dirty who readable written loaded all fit recorded reads mem used run =>
    obtain ⟨m, _, hrun, _, _, _, h', hsteady, hview, _⟩ :=
      remount_refines h (storable areas magic counted fit recorded) reads mem used
    rw [run] at hrun
    cases hrun
    exact ⟨⟨t, h'⟩, hsteady, hview⟩

/-- The volume after any run of calls is in order, with the areas it had. -/
theorem run_session {m m' : Mount} {calls : List (Call Nat Name Byte)} (s : Session m.world)
    (run : Loop.Run FsStep m calls m') :
    Session m'.world ∧ SameLayout m.world.sbi m'.world.sbi := by
  refine run.keeps (fun v => Session v.world ∧ SameLayout m.world.sbi v.world.sbi) ?_
    ⟨s, SameLayout.refl _⟩
  rintro v c v' ⟨hv, layout⟩ step
  obtain ⟨hv', steady, _⟩ := step.refines hv
  exact ⟨hv', layout.trans steady.layout⟩

end

section

variable {ok : Nat → Bool} {stSize : Nat} {disk image : Store} {who : Caller}
  {readable : Nat → Bool} {memory : Fin 4 → Bool} {w : World}

/-- A formatted volume shows an empty root. -/
theorem view_formatted (formatted : mkfs ok stSize disk = some image)
    (mount : ouichefsFillSuper image who readable memory = .ok w)
    (small : stSize / 4096 ≤ 524288) : view w = FileTree.root 1 := by
  have h := formatted_volume formatted mount small
  obtain ⟨fits, hzero, _⟩ := mkfs_emitted formatted
  have m := mounted formatted mount
  obtain ⟨root, hcache, _, hdir⟩ := m.root
  have hroom : 1 < w.sbi.nrInodes := by
    rw [m.nrInodes, ← (csb_formatted fits hzero).2.1]
    exact (ouichefsFillSuper_ok mount).2.2.1
  have hbit : ∀ i, i < w.sbi.nrInodes → w.sbi.ifreeBitmap i = decide (2 ≤ i) := by
    rw [m.nrInodes]
    exact m.ifreeBitmap
  have hroot : live w 1 = some root := by
    refine live_eq_some.mpr ⟨⟨by decide, hroom, by rw [hbit 1 hroom]; rfl⟩, ?_⟩
    rw [hcache]
    rfl
  have hnone : ∀ i, i ≠ 1 → live w i = none := by
    intro i hi
    refine if_neg ?_
    rintro ⟨hpos, hlt, hused⟩
    rw [hbit i hlt, decide_eq_false_iff_not] at hused
    omega
  refine State.ext ?_ ?_ ?_
  · funext i
    change _ = if i = 1 then some Kind.directory else none
    by_cases hi : i = 1
    · rw [if_pos hi, hi, view_kind h.world hroot, kindOf, if_pos hdir]
    · rw [if_neg hi, (view_absent h.world (hnone i hi)).1]
  · rw [view_entries h]
    rfl
  · funext i
    change _ = []
    by_cases hi : i = 1
    · rw [hi, view_bytes h.world hroot, if_pos hdir]
    · exact (view_absent h.world (hnone i hi)).2

theorem formatted_session (formatted : mkfs ok stSize disk = some image)
    (mount : ouichefsFillSuper image who readable memory = .ok w)
    (small : stSize / 4096 ≤ 524288) : Session w :=
  ⟨⟨_, formatted_volume formatted mount small⟩, formatted_oneTooMany formatted mount,
    formatted_areas formatted mount small, mounted_magic mount,
    by rw [view_formatted formatted mount small]; rfl⟩

end

/-! A file is made on a volume of 100 blocks, two bytes are written to it, and a third
one between them, which takes a second block. -/

def nameA : Name := ⟨[97], by decide, by decide, by decide⟩

theorem sampleRun_step {p : World × World} (hp : sampleRun = some p) : ∃ image d node,
    mkfs (fun _ => true) 409600 (fun _ => zeroBlock) = some image ∧
    ouichefsFillSuper image ⟨0, 0, true⟩ (fun _ => true) (fun _ => true) = .ok p.1 ∧
    FsStep (clean p.1) (.create 1 nameA .file 0) ⟨p.2, mark [2, 1] fun _ => false⟩ ∧
    LiveDir p.2 1 d ∧ lookupLoop (p.2.disk d.indexBlock) nameA.1 maxSubfiles 0 = some 2 ∧
    live p.2 2 = some node ∧ sIsreg node.iMode = true := by
  have hfound : (sampleRun.bind fun p => (live p.2 1).bind fun d =>
      (ouichefsCreate p.1 ⟨0, 0, true⟩ calmIo 1 [97] 0o100644).map fun r => sIsdir d.iMode &&
        decide (lookupLoop (p.2.disk d.indexBlock) [97] maxSubfiles 0 = some 2) &&
        decide (r.2 = 0) && decide ((getFreeInode p.1.sbi).1 = 2)) = some true := by
    decide +kernel
  rw [hp, Option.bind_some] at hfound
  obtain ⟨d, hd, hfound⟩ := Option.bind_eq_some_iff.mp hfound
  obtain ⟨r, hr, hfound⟩ := Option.map_eq_some_iff.mp hfound
  simp only [Bool.and_eq_true, decide_eq_true_eq] at hfound
  obtain ⟨⟨⟨hdir₁, hlookup⟩, hret⟩, hino⟩ := hfound
  obtain ⟨image, r', himage, hw₀, hrun, heq⟩ := newFileOver_run hp
  obtain rfl := Option.some.inj (hr.symm.trans hrun)
  obtain ⟨_, _, d₀, _, node, himage', hw', hdir, hrun', hlive, hreg⟩ := sampleRun_create
  obtain rfl := Option.some.inj (himage.symm.trans himage')
  obtain rfl := Except.ok.inj (hw₀.symm.trans hw')
  obtain rfl := Option.some.inj (hrun.symm.trans hrun')
  have h := formatted_volume himage hw₀ (by decide)
  have hcreate := FsStep.create p.1 (fun _ => false) ⟨0, 0, true⟩ calmIo 1 d₀ nameA _ r hdir
    ((h.lookup_eq hdir nameA.2).trans rfl) (fun _ => rfl) hrun
  rw [if_pos hret, hino, hret, heq] at hcreate
  exact ⟨image, d, node, himage, hw₀, hcreate, ⟨hd, hdir₁⟩, hlookup, heq ▸ hlive, hreg⟩

/-- `data` is written to the file of the sample. -/
def sampleWrite (w : World) (pos : Nat) (data : List Byte) : Option WriteResult :=
  (live w 2).map fun node => ouichefsLightWrite (w.ctx node calmIo) 1 data pos

theorem sampleWrite_step {w : World} {node : Inode} {pos : Nat} {data : List Byte} {r : WriteResult}
    (hr : sampleWrite w pos data = some r) (own : live w 2 = some node)
    (reg : sIsreg node.iMode = true) (full : r.pos = pos + data.length ∧ r.ret = data.length)
    (some_ : 0 < data.length) (dirty : Nat → Bool) :
    FsStep ⟨w, dirty⟩ (.write 2 pos data data.length data.length)
      ⟨w.withCtx 2 r.ctx, mark [2] dirty⟩ := by
  unfold sampleWrite at hr
  rw [own] at hr
  have hstart : startPos (w.ctx node calmIo) 1 pos = pos := rfl
  have hwrite := FsStep.write w dirty calmIo 2 node 1 pos data r own reg (Option.some.inj hr)
  rwa [hstart, full.1, full.2, Nat.add_sub_cancel_left, if_pos some_] at hwrite

def sampleFile : Option (World × World) :=
  sampleRun.bind fun p => (sampleWrite p.2 0 [66, 67]).bind fun r =>
    (sampleWrite (p.2.withCtx 2 r.ctx) 1 [68]).map fun r' =>
      (p.1, (p.2.withCtx 2 r.ctx).withCtx 2 r'.ctx)

def sampleCalls : List (Call Nat Name Byte) :=
  [.create 1 nameA .file 0, .write 2 0 [66, 67] 2 2, .write 2 1 [68] 1 1]

theorem sampleFile_run : ∃ image w₀ w dirty node,
    mkfs (fun _ => true) 409600 (fun _ => zeroBlock) = some image ∧
    ouichefsFillSuper image ⟨0, 0, true⟩ (fun _ => true) (fun _ => true) = .ok w₀ ∧
    Loop.Run (fun m c m' => FsStep m c m' ∧ Guarded (view m.world) c) (clean w₀) sampleCalls
      ⟨w, dirty⟩ ∧
    sampleFile = some (w₀, w) ∧ live w 2 = some node ∧ sIsreg node.iMode = true := by
  have hsample : (sampleRun.bind fun p => (sampleWrite p.2 0 [66, 67]).bind fun r =>
      (live (p.2.withCtx 2 r.ctx) 2).bind fun n =>
      (sampleWrite (p.2.withCtx 2 r.ctx) 1 [68]).bind fun r' =>
      (live ((p.2.withCtx 2 r.ctx).withCtx 2 r'.ctx) 2).map fun n' =>
        decide (r.pos = 2 ∧ r.ret = 2) && decide (r'.pos = 2 ∧ r'.ret = 1) && sIsreg n.iMode &&
          sIsreg n'.iMode) = some true := by
    decide +kernel
  obtain ⟨p, hp, hsample⟩ := Option.bind_eq_some_iff.mp hsample
  obtain ⟨r, hr, hsample⟩ := Option.bind_eq_some_iff.mp hsample
  obtain ⟨n, hn, hsample⟩ := Option.bind_eq_some_iff.mp hsample
  obtain ⟨r', hr', hsample⟩ := Option.bind_eq_some_iff.mp hsample
  obtain ⟨n', hn', hsample⟩ := Option.map_eq_some_iff.mp hsample
  simp only [Bool.and_eq_true, decide_eq_true_eq] at hsample
  obtain ⟨⟨⟨hfull, hfull'⟩, hreg⟩, hreg'⟩ := hsample
  obtain ⟨image, _, node, himage, hw₀, hcreate, _, _, hlive, hreg₀⟩ := sampleRun_step hp
  have hwrite := sampleWrite_step hr hlive hreg₀ hfull (by decide) (mark [2, 1] fun _ => false)
  have hwrite' := sampleWrite_step hr' hn hreg hfull' (by decide)
    (mark [2] (mark [2, 1] fun _ => false))
  refine ⟨image, p.1, _, _, n', himage, hw₀, .cons ⟨hcreate, trivial⟩ (.cons ⟨hwrite, trivial⟩
    (.single ⟨hwrite', trivial⟩)), ?_, hn', hreg'⟩
  unfold sampleFile
  rw [hp, Option.bind_some, hr, Option.bind_some, hr', Option.map_some]

end FileSystem
