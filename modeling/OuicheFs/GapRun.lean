import OuicheFs.VolumeRun
import OuicheFs.Exposure
import OuicheFs.Sharing

/-!
# Gaps on a shared volume

Files are created, removed, truncated and written in any order, whatever fails.
A block that is given back by a truncation keeps its bytes, and so does a block
that `mkfs` never wrote. A write behind the end makes such bytes part of the
file, so the gap reads as zeros only if the places it takes up held zeros.
-/
namespace GapRun

open CInt Bits ByteBuffer IndexEntry Allocator FileContext Layout OuicheFile OuicheWrite OuicheRead
  OuicheInode OuicheSuper Mkfs Reserve FileRun LightWrite PlainWrite Ownership Lifecycle VolumeRun
  Exposure Sharing

/-- What is asked of a live regular file. -/
inductive Request where
  | remove
  | openFile (fFlags : Nat)
  | lightWrite (fFlags : Nat) (data : List Byte) (pos : Nat)
  | write (fFlags : Nat) (data : List Byte) (pos : Nat)

/-- One operation on a mounted volume; `condition` restricts the requests by the
state they find. -/
inductive Step (condition : Ctx → Request → Prop) : World → World → Prop
  | create (w : World) (who : Caller) (io : Io) (dir : Nat) (d : Inode) (name : List Byte)
      (mode : Nat) (r : World × Int) :
      LiveDir w dir d → ouichefsCreate w who io dir name mode = some r → Step condition w r.1
  | unlink (w : World) (io : Io) (dir ino : Nat) (d node : Inode) (r : World × Int) :
      LiveDir w dir d → live w ino = some node → sIsreg node.iMode = true →
      condition (w.ctx node io) .remove → ouichefsUnlink w io dir ino = some r →
      Step condition w r.1
  | openFile (w : World) (io : Io) (ino : Nat) (node : Inode) (fFlags fuel : Nat) (r : Ctx × Int) :
      live w ino = some node → sIsreg node.iMode = true →
      condition (w.ctx node io) (.openFile fFlags) →
      ouichefsOpen fuel (w.ctx node io) fFlags = some r → Step condition w (w.withCtx ino r.1)
  | lightWrite (w : World) (io : Io) (ino : Nat) (node : Inode) (fFlags : Nat) (data : List Byte)
      (pos : Nat) :
      live w ino = some node → sIsreg node.iMode = true →
      condition (w.ctx node io) (.lightWrite fFlags data pos) →
      Step condition w (w.withCtx ino (ouichefsLightWrite (w.ctx node io) fFlags data pos).ctx)
  | write (w : World) (io : Io) (ino : Nat) (node : Inode) (fFlags : Nat) (data : List Byte)
      (pos : Nat) :
      live w ino = some node → sIsreg node.iMode = true →
      condition (w.ctx node io) (.write fFlags data pos) →
      Step condition w (w.withCtx ino (ouichefsWrite (w.ctx node io) fFlags data pos).ctx)

/-- After a write behind the end the gap reads as zeros, by the reader that goes
with the writer. -/
def GapZero (s : Ctx) : Request → Prop
  | .lightWrite fFlags data pos => LightGapZero s fFlags data pos
  | .write fFlags data pos => PlainGapZero s fFlags data pos
  | _ => True

/-- The file is in the format of the writer, and the places that would become a
gap hold zeros. A truncated file is left alone. -/
def Scrubbed (s : Ctx) : Request → Prop
  | .remove => 1 ≤ s.node.iBlocks
  | .openFile fFlags => fFlags &&& oTrunc ≠ 0 → s.node.iBlocks ≤ indexSlots
  | .lightWrite fFlags data pos => 1 ≤ s.node.iBlocks ∧ s.node.iSize = total s.entries ∧
      (data ≠ [] → ∀ b k, LightExposed s (startPos s fFlags pos) b k → s.disk b k = 0)
  | .write fFlags data pos => 1 ≤ s.node.iBlocks ∧ (∀ e ∈ s.entries, e.toNat < 524288) ∧
      (data ≠ [] → ∀ b k, PlainExposed s (startPos s fFlags pos) b k → s.disk b k = 0)

/-- Words without a size are the entries of a plain file. -/
theorem freshEntries_toNat {es : List Word} (h : ∀ e ∈ es, e.toNat < 524288) :
    freshEntries (es.map BitVec.toNat) = es := by
  unfold freshEntries
  rw [List.map_map]
  apply (List.map_congr_left fun e he => ?_).trans (List.map_id es)
  change freshEntry e.toNat = e
  rw [freshEntry_of_lt (h e he), BitVec.ofNat_toNat, BitVec.setWidth_eq]

section

variable {w w' : World} {ino : Nat} {node : Inode} {io : Io}

theorem SharedInv.fileInv (h : SharedInv w) (hl : live w ino = some node)
    (reg : sIsreg node.iMode = true) (counted : 1 ≤ node.iBlocks)
    (size : node.iSize = total (w.ctx node io).entries) : ∃ es, FileInv (w.ctx node io) es := by
  obtain ⟨es, hshape, hheld, _⟩ := h.shape hl reg counted io
  rw [hshape.entries_eq] at size
  exact ⟨es, hshape, hheld, size, h.small⟩

theorem SharedInv.plainInv (h : SharedInv w) (hl : live w ino = some node)
    (reg : sIsreg node.iMode = true) (counted : 1 ≤ node.iBlocks)
    (plain : ∀ e ∈ (w.ctx node io).entries, e.toNat < 524288) :
    ∃ bs, PlainInv (w.ctx node io) bs := by
  obtain ⟨es, hshape, hheld, _⟩ := h.shape hl reg counted io
  rw [hshape.entries_eq] at plain
  refine ⟨es.map BitVec.toNat, ?_, ?_, ?_, h.small⟩
  · rw [freshEntries_toNat plain]
    exact hshape
  · rw [freshEntries_toNat plain]
    exact hheld
  · intro b hb
    obtain ⟨e, he, rfl⟩ := List.mem_map.mp hb
    exact plain e he

theorem ouichefsOpen_shared (h : SharedInv w) {fFlags fuel : Nat} {r : Ctx × Int}
    (hl : live w ino = some node) (reg : sIsreg node.iMode = true)
    (few : fFlags &&& oTrunc ≠ 0 → node.iBlocks ≤ indexSlots)
    (run : ouichefsOpen fuel (w.ctx node io) fFlags = some r) : Confined (w.ctx node io) r.1 := by
  have hused : ∀ b ∈ numbers (w.ctx node io).entries, Used w.sbi b := by
    intro b hb
    have hmem : b ∈ holds w ino := by
      rw [holds_live hl, nodeBlocks, if_pos reg]
      exact List.mem_cons_of_mem _ hb
    exact h.used hmem
  have hfile : (∃ es, Shape (w.ctx node io) es) ∨ (node.iBlocks = 0 ∧ node.iSize = 0) := by
    rcases (h.settled ino node hl).file reg with ⟨es, hs⟩ | hcleared
    · exact Or.inl ⟨es, hs.congr (fun _ _ => rfl) rfl rfl⟩
    · exact Or.inr hcleared
  by_cases htrunc : fFlags &&& oTrunc = 0
  · rw [ouichefsOpen_same (Or.inl htrunc)] at run
    cases run
    exact Confined.refl h.blocks hused hfile
  rcases hfile with ⟨es, hshape⟩ | hcleared
  · have hib : node.iBlocks = es.length + 1 := hshape.iBlocks
    have hlt : es.length < 1024 := by
      have := few htrunc
      unfold indexSlots at this
      omega
    rw [hshape.entries_eq] at hused
    exact ouichefsOpen_confined hshape ⟨h.blocks, hused, h.used (index_mem_holds hl)⟩ hlt run
  · rw [ouichefsOpen_same (Or.inr hcleared.2)] at run
    cases run
    exact Confined.refl h.blocks hused (Or.inr hcleared)

theorem Step.shared (h : SharedInv w) (step : Step Scrubbed w w') : SharedInv w' := by
  cases step with
  | create who io dir d name mode r parent run => exact ouichefsCreate_shared h parent run
  | unlink io dir ino d node r parent own reg counted run =>
    exact ouichefsUnlink_shared h parent own reg counted run
  | openFile io ino node fFlags fuel r own reg few run =>
    exact h.confined own reg (ouichefsOpen_shared h own reg few run)
  | lightWrite io ino node fFlags data pos own reg clean =>
    obtain ⟨es, hinv⟩ := SharedInv.fileInv h own reg clean.1 clean.2.1
    obtain ⟨fresh, es', g, m, hw⟩ := ouichefsLightWrite_spec hinv.shape hinv.held
      hinv.size fFlags (addressable_of_small hinv.small _)
    exact h.confined own reg (Effect.confined (Written.effect hw hinv) hinv.shape)
  | write io ino node fFlags data pos own reg clean =>
    obtain ⟨bs, hinv⟩ := SharedInv.plainInv h own reg clean.1 clean.2.1
    obtain ⟨fresh, hl⟩ := ouichefsWrite_lengthened hinv fFlags data pos
    exact h.confined own reg (Lengthened.confined hl hinv)

theorem run_shared {w₀ : World} (h : SharedInv w₀)
    (run : Relation.ReflTransGen (Step Scrubbed) w₀ w) : SharedInv w := by
  induction run with
  | refl => exact h
  | tail _ step ih => exact step.shared ih

/-- Whatever the request, with zeros in the places it exposes no gap shows
anything else. -/
theorem gapZero_of_scrubbed (h : SharedInv w) (hl : live w ino = some node)
    (reg : sIsreg node.iMode = true) {q : Request} (clean : Scrubbed (w.ctx node io) q) :
    GapZero (w.ctx node io) q := by
  cases q with
  | remove => trivial
  | openFile fFlags => trivial
  | lightWrite fFlags data pos =>
    obtain ⟨hcounted, hsize, hzero⟩ := clean
    obtain ⟨es, hinv⟩ := SharedInv.fileInv h hl reg hcounted hsize
    exact lightGapZero_of_clean hinv fFlags data pos hzero
  | write fFlags data pos =>
    obtain ⟨hcounted, hplain, hzero⟩ := clean
    obtain ⟨bs, hinv⟩ := SharedInv.plainInv h hl reg hcounted hplain
    exact plainGapZero_of_clean hinv fFlags data pos hzero

end

/-- On every volume of at most 2^19 blocks, whatever its free blocks hold: in every
run whose requests find the places they expose scrubbed, a write behind the end
leaves a gap that reads as zeros. -/
theorem gaps_read_zero (ok : Nat → Bool) (stSize : Nat) (disk image : Store) (who : Caller)
    (readable : Nat → Bool) (memory : Fin 4 → Bool) (w₀ w : World)
    (formatted : mkfs ok stSize disk = some image)
    (mount : ouichefsFillSuper image who readable memory = .ok w₀)
    (small : stSize / 4096 ≤ 524288) (run : Relation.ReflTransGen (Step Scrubbed) w₀ w)
    (ino : Nat) (node : Inode) (own : live w ino = some node) (reg : sIsreg node.iMode = true)
    (io : Io) (q : Request) (scrubbed : Scrubbed (w.ctx node io) q) : GapZero (w.ctx node io) q := by
  have h := run_shared (WorldInv.shared (formatted_inv formatted mount small)) run
  exact gapZero_of_scrubbed h own reg scrubbed

/-- The volume before and after the creation of a file over the bytes of `disk`,
and the inode of the file. -/
def newFile (disk : Store) : Option (World × World × Inode) :=
  (newFileOver disk).bind fun p => (live p.1 1).bind fun d => (live p.2 2).bind fun node =>
    if sIsdir d.iMode = true ∧ sIsreg node.iMode = true ∧ node.iBlocks = 1 ∧ node.iSize = 0 ∧
      p.2.sbi.nrBlocks = 100 then some (p.1, p.2, node) else none

/-- What is known of the new file. -/
structure Fresh (disk : Store) (w₀ w : World) (node : Inode) : Prop where
  mounted : ∃ image, mkfs (fun _ => true) 409600 disk = some image ∧
    ouichefsFillSuper image ⟨0, 0, true⟩ (fun _ => true) (fun _ => true) = .ok w₀
  run : ∀ condition, Relation.ReflTransGen (Step condition) w₀ w
  own : live w 2 = some node
  reg : sIsreg node.iMode = true
  iBlocks : node.iBlocks = 1
  iSize : node.iSize = 0
  nrBlocks : w.sbi.nrBlocks = 100

theorem newFile_fresh {disk : Store} {w₀ w : World} {node : Inode}
    (h : newFile disk = some (w₀, w, node)) : Fresh disk w₀ w node := by
  obtain ⟨p, hp, h⟩ := Option.bind_eq_some_iff.mp h
  obtain ⟨d, hd, h⟩ := Option.bind_eq_some_iff.mp h
  obtain ⟨n, hn, h⟩ := Option.bind_eq_some_iff.mp h
  obtain ⟨image, r, himage, hmount, hr, hr₂⟩ := newFileOver_run hp
  split at h
  · rename_i hok
    obtain ⟨hdir, hreg, hib, hsize, hnr⟩ := hok
    cases h
    refine ⟨⟨image, himage, hmount⟩, fun condition => ?_, hn, hreg, hib, hsize, hnr⟩
    rw [← hr₂]
    exact .single (Step.create p.1 _ calmIo 1 d _ _ r ⟨hd, hdir⟩ hr)
  · cases h

/-- One byte is written at position 1 of a new file on an image made over zeros. -/
theorem gaps_read_zero_blank : ∃ w node, live w 2 = some node ∧
    (ouichefsLightWrite (w.ctx node calmIo) 1 [66] 1).ret = 1 ∧
    GapZero (w.ctx node calmIo) (.lightWrite 1 [66] 1) := by
  have hcheck : (newFile (fun _ => zeroBlock)).map (fun q =>
      ((ouichefsLightWrite (q.2.1.ctx q.2.2 calmIo) 1 [66] 1).ret,
        (List.range 100).all fun b => !q.2.1.sbi.bfreeBitmap b || q.2.1.disk b 0 == 0)) =
      some (1, true) := by decide +kernel
  obtain ⟨⟨w₀, w, node⟩, hq, hval⟩ := Option.map_eq_some_iff.mp hcheck
  obtain ⟨hret, hzero⟩ := Prod.mk.inj hval
  rw [List.all_eq_true] at hzero
  have hf := newFile_fresh hq
  obtain ⟨image, himage, hmount⟩ := hf.mounted
  have hentries : (w.ctx node calmIo).entries = [] := by
    unfold Ctx.entries
    change (List.range (node.iBlocks - 1)).map _ = []
    rw [hf.iBlocks]
    rfl
  refine ⟨w, node, hf.own, hret, gaps_read_zero _ _ _ _ _ _ _ _ _ himage hmount (by decide)
    (hf.run Scrubbed) 2 node hf.own hf.reg calmIo _ ⟨Nat.le_of_eq hf.iBlocks.symm, ?_, ?_⟩⟩
  · rw [hentries]
    exact hf.iSize
  · intro _ b k hb
    cases hb with
    | slack e k hlast =>
      rw [hentries] at hlast
      cases hlast
    | fresh b k hlt hfree _ hplace =>
      -- the gap has a single byte
      have hstart : startPos (w.ctx node calmIo) 1 1 = 1 := if_neg (by decide)
      rw [hstart] at hplace
      obtain rfl : k = 0 := by omega
      have hbyte := hzero b (List.mem_range.mpr (hf.nrBlocks ▸ hlt))
      rw [show w.sbi.bfreeBitmap b = true from hfree] at hbyte
      exact eq_of_beq hbyte

/-- On an image made over other bytes the gap shows one of them. -/
theorem gaps_read_zero_not_always : ¬ ∀ (ok : Nat → Bool) (stSize : Nat) (disk image : Store)
    (who : Caller) (readable : Nat → Bool) (memory : Fin 4 → Bool) (w₀ w : World),
    mkfs ok stSize disk = some image → ouichefsFillSuper image who readable memory = .ok w₀ →
    Relation.ReflTransGen (Step fun _ _ => True) w₀ w →
    ∀ (ino : Nat) (node : Inode), live w ino = some node → sIsreg node.iMode = true →
      ∀ (io : Io) (q : Request), GapZero (w.ctx node io) q := by
  intro hall
  have hcheck : (newFile (fun _ _ => 65)).map (fun q =>
      ((ouichefsLightWrite (q.2.1.ctx q.2.2 calmIo) 1 [66] 1).ret,
        (ouichefsLightRead (fun _ => 0) { (ouichefsLightWrite (q.2.1.ctx q.2.2 calmIo) 1 [66] 1).ctx
          with io := calmIo } 0 1 0).data[0]?)) = some (1, some 65) := by decide +kernel
  obtain ⟨⟨w₀, w, node⟩, hq, hval⟩ := Option.map_eq_some_iff.mp hcheck
  obtain ⟨hret, hread⟩ := Prod.mk.inj hval
  have hf := newFile_fresh hq
  obtain ⟨image, himage, hmount⟩ := hf.mounted
  have hsize : (w.ctx node calmIo).node.iSize = 0 := hf.iSize
  have hstart : startPos (w.ctx node calmIo) 1 1 = 1 := if_neg (by decide)
  have hgap : LightGapZero (w.ctx node calmIo) 1 [66] 1 := hall _ _ _ _ _ _ _ _ _ himage hmount
    (hf.run _) 2 node hf.own hf.reg calmIo (.lightWrite 1 [66] 1)
  have hzero := hgap (by rw [hsize, hstart]; decide) (by rw [hret]; decide) (fun _ => 0) calmIo 0
    1 0 0 65 hread (by rw [hsize]) (by rw [hstart]; decide)
  exact absurd hzero (by decide)

end GapRun
