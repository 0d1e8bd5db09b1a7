import OuicheFs.Directory
import Mathlib.Logic.Relation
import Mathlib.Data.List.Nodup

/-!
# Listing a directory while files are removed

The position of a listing is a slot number, and a removal closes the gap it
leaves. A removal behind the cursor or in an exhausted listing does no harm; one
in front of the cursor moves an entry that has not been listed over it.
-/
namespace Listing

open CInt ByteBuffer IndexEntry FileContext OuicheInode OuicheDir Directory

/-- The file `f` is an entry of the directory. -/
def InDirectory (w : World) (dir : Nat) (f : DirFile) : Prop :=
  ∃ d, w.icache dir = some d ∧
    ∃ i, i < maxSubfiles ∧ dirFile (w.disk d.indexBlock) i = f ∧ f.inode ≠ 0

/-- A listing under way: the volume, the position, what has been handed over,
and the entries that were there at every call. -/
structure Progress where
  w : World
  pos : Nat
  emitted : List Dirent
  present : DirFile → Prop

/-- A listing that has not begun. -/
def begin (w : World) : Progress := ⟨w, 0, [], fun _ => True⟩

def Progress.after (l : Progress) (dir : Nat) (r : IterateResult) : Progress :=
  ⟨l.w, r.pos, l.emitted ++ r.emitted, fun f => l.present f ∧ InDirectory l.w dir f⟩

/-- Calls of `ouichefs_iterate` with any room in the buffer, and removals of
files from the directory between them. -/
inductive ListStep (condition : Progress → Nat → Prop) (dir : Nat) : Progress → Progress → Prop
  | iterate (l : Progress) (io : Io) (room : Nat) (r : IterateResult) :
      ouichefsIterate l.w io dir l.pos room = some r → ListStep condition dir l (l.after dir r)
  | unlink (l : Progress) (io : Io) (ino : Nat) (r : World × Int) :
      ino ≠ dir → ino ≠ 0 → condition l ino → ouichefsUnlink l.w io dir ino = some r →
      ListStep condition dir l { l with w := r.1 }

/-- The removal is not in front of the cursor, or nothing is left to list; and
the removed file has no block in common with the directory. -/
structure Harmless (dir : Nat) (l : Progress) (ino : Nat) : Prop where
  cursor : ∀ d, l.w.icache dir = some d →
    (∀ i, i < l.pos - 2 → fileInode (l.w.disk d.indexBlock) i ≠ ino) ∨
      (∀ i, l.pos - 2 ≤ i → i < maxSubfiles → fileInode (l.w.disk d.indexBlock) i = 0)
  apart : ∀ d node, l.w.icache dir = some d → l.w.icache ino = some node →
    node.indexBlock ≠ d.indexBlock ∧ ∀ i, i < u64 ((node.iBlocks : Int) - 1) →
      le32 (l.w.disk node.indexBlock) (4 * i) = 0 ∨
        getBlockNumber (le32 (l.w.disk node.indexBlock) (4 * i)) ≠ d.indexBlock

/-! ## A call of `ouichefs_iterate` -/

section

variable {dblock : Buffer} {es : List DirFile}

theorem iterateLoop_eq (h : Packed dblock es) (n : Nat) : ∀ (i room : Nat), i + n = maxSubfiles →
    iterateLoop dblock n i room =
      (((es.drop i).take room).map .file, decide (es.length ≤ i + room)) := by
  have hl := h.length_le
  induction n with
  | zero =>
    intro i room hn
    rw [iterateLoop, List.drop_of_length_le (by omega), decide_eq_true (by omega)]
    simp
  | succ n ih =>
    intro i room hn
    rw [iterateLoop]
    rcases Nat.lt_or_ge i es.length with hlt | hge
    · rw [if_neg (h.inode_ne_zero hlt), List.drop_eq_getElem_cons hlt, h.getElem hlt]
      cases room with
      | zero =>
        rw [if_pos rfl, decide_eq_false (by omega)]
        rfl
      | succ room =>
        rw [if_neg (Nat.succ_ne_zero room)]
        simp only [Nat.add_sub_cancel]
        rw [ih (i + 1) room (by omega)]
        simp only [List.take_succ_cons, List.map_cons, Prod.mk.injEq, true_and]
        congr 1
        apply propext
        omega
    · rw [if_pos (h.inode_eq_zero hge (by omega)), List.drop_of_length_le hge,
        decide_eq_true (by omega)]
      simp

/-- What a call does to the listing of the entries `es`: it goes through a
window of slots. -/
structure Advanced (es : List DirFile) (pos : Nat) (r : IterateResult) : Prop where
  forward : pos - 2 ≤ r.pos - 2
  files : ∃ dots, r.emitted = dots ++
      ((es.drop (pos - 2)).take (r.pos - 2 - (pos - 2))).map Dirent.file ∧
    ∀ f, Dirent.file f ∉ dots
  ended : r.ended = true → es.length ≤ r.pos - 2

/-- The dots come before all files. -/
theorem dirEmitDots_spec (pos room : Nat) :
    (∀ f, Dirent.file f ∉ (dirEmitDots pos room).2.1) ∧
      (dirEmitDots pos room).1 - 2 = pos - 2 ∧
      ((dirEmitDots pos room).2.2 = true → 2 ≤ (dirEmitDots pos room).1) := by
  unfold dirEmitDots
  split
  · rename_i hpos
    subst hpos
    split
    · simp
    split <;> simp
  split
  · rename_i hpos
    subst hpos
    split <;> simp
  · refine ⟨by simp, rfl, fun _ => ?_⟩
    simp only
    omega

theorem ouichefsIterate_advances {w : World} {io : Io} {dir pos room : Nat} {d : Inode}
    {r : IterateResult} (h : Packed (w.disk d.indexBlock) es) (hd : w.icache dir = some d)
    (run : ouichefsIterate w io dir pos room = some r) : Advanced es pos r := by
  have hl := h.length_le
  have hstay : ∀ (p : Nat) (dots : List Dirent) (ret : Int), p - 2 = pos - 2 →
      (∀ f, Dirent.file f ∉ dots) → Advanced es pos ⟨p, dots, false, ret⟩ := by
    intro p dots ret hp hdots
    refine ⟨Nat.le_of_eq hp.symm, ⟨dots, ?_, hdots⟩, by simp⟩
    simp [hp]
  unfold ouichefsIterate at run
  rw [hd, Option.map_some] at run
  have hrun := Option.some.inj run
  clear run
  subst hrun
  split
  · exact hstay pos [] _ rfl (by simp)
  split
  · refine ⟨Nat.le_refl _, ⟨[], by simp, by simp⟩, fun _ => ?_⟩
    simp only
    omega
  rename_i hmax
  obtain ⟨hdots, hpos, htwo⟩ := dirEmitDots_spec pos room
  simp only
  split
  · exact hstay _ _ 0 hpos hdots
  rename_i hroom
  split
  · exact hstay _ _ _ hpos hdots
  have htwo := htwo (by simpa using hroom)
  rw [iterateLoop_eq h _ _ _ (by omega), hpos]
  obtain ⟨m, hm⟩ : ∃ m, m = ((es.drop (pos - 2)).take
      (room - (dirEmitDots pos room).2.1.length)).length := ⟨_, rfl⟩
  simp only [List.length_map]
  rw [← hm]
  have hwindow : (dirEmitDots pos room).1 + m - 2 - (pos - 2) = m := by omega
  refine ⟨by simp only; omega, ⟨_, ?_, hdots⟩, ?_⟩
  · simp only
    rw [hwindow, hm, List.length_take, ← List.take_eq_take_min]
  · intro hended
    have hall := of_decide_eq_true hended
    rw [List.length_take, List.length_drop] at hm
    simp only
    omega

end

/-! ## A removal -/

/-- The blocks a removal scrubs do not include `b`. -/
theorem putBlocksLoop_disk {bno b : Nat} (ok : Nat → Bool) (n : Nat) :
    ∀ (i : Nat) (w : World), (∀ j, i ≤ j → j < i + n → le32 (w.disk bno) (4 * j) = 0 ∨
      getBlockNumber (le32 (w.disk bno) (4 * j)) ≠ b) →
      (putBlocksLoop bno ok n i w).disk b = w.disk b := by
  induction n with
  | zero => exact fun _ _ _ => rfl
  | succ n ih =>
    intro i w hwords
    rw [putBlocksLoop]
    simp only
    split
    · exact ih (i + 1) w (fun j hlo hhi => hwords j (by omega) (by omega))
    rename_i hword
    split
    · exact ih (i + 1) _ (fun j hlo hhi => hwords j (by omega) (by omega))
    obtain ⟨c, hc⟩ : ∃ c, c = getBlockNumber (le32 (w.disk bno) (4 * i)) := ⟨_, rfl⟩
    have hcb : c ≠ b := hc ▸ (hwords i (by omega) (by omega)).resolve_left hword
    rw [← hc, ih (i + 1)]
    · exact set_of_ne _ _ hcb.symm
    · -- the scrubbed block may be the index block itself, which then has no entry left
      intro j hlo hhi
      by_cases hindex : bno = c
      · change le32 (w.disk.set c _ bno) (4 * j) = 0 ∨ getBlockNumber (le32 (w.disk.set c _ bno) _) ≠ b
        rw [hindex, set_self]
        rcases Nat.lt_or_ge j 1024 with hin | hout
        · exact Or.inl (fill_block_zero _ hin)
        · rw [fill, le32_blit_of_disjoint _ _ (by unfold blockSize; omega), ← hindex]
          exact hwords j (by omega) (by omega)
      · change le32 (w.disk.set c _ bno) (4 * j) = 0 ∨ getBlockNumber (le32 (w.disk.set c _ bno) _) ≠ b
        rw [set_of_ne _ _ hindex]
        exact hwords j (by omega) (by omega)

theorem scrubBlocks_disk {w : World} {io : Io} {node : Inode} {b : Nat} (ne : node.indexBlock ≠ b)
    (words : ∀ i, i < u64 ((node.iBlocks : Int) - 1) → le32 (w.disk node.indexBlock) (4 * i) = 0 ∨
      getBlockNumber (le32 (w.disk node.indexBlock) (4 * i)) ≠ b) :
    (scrubBlocks w io node).disk b = w.disk b := by
  unfold scrubBlocks
  simp only
  split
  · rfl
  refine (set_of_ne _ _ ne.symm).trans ?_
  split
  · rfl
  · exact putBlocksLoop_disk _ _ 0 w (fun j _ hj => words j (by omega))

/-- The directory after a removal: the same index block, with the same entries
or without one that names the inode. -/
structure Shrunk (w' : World) (dir ino : Nat) (d : Inode) (es es' : List DirFile) : Prop where
  cached : ∃ d', w'.icache dir = some d' ∧ d'.indexBlock = d.indexBlock
  packed : Packed (w'.disk d.indexBlock) es'
  entries : es' = es ∨ ∃ j f, es[j]? = some f ∧ f.inode = ino ∧ es' = es.eraseIdx j

theorem ouichefsUnlink_shrinks {w : World} {io : Io} {dir ino : Nat} {d : Inode}
    {es : List DirFile} {r : World × Int} (h : Packed (w.disk d.indexBlock) es)
    (hd : w.icache dir = some d) (other : ino ≠ dir) (ne : ino ≠ 0)
    (apart : ∀ node, w.icache ino = some node → node.indexBlock ≠ d.indexBlock ∧
      ∀ i, i < u64 ((node.iBlocks : Int) - 1) → le32 (w.disk node.indexBlock) (4 * i) = 0 ∨
        getBlockNumber (le32 (w.disk node.indexBlock) (4 * i)) ≠ d.indexBlock)
    (run : ouichefsUnlink w io dir ino = some r) : ∃ es', Shrunk r.1 dir ino d es es' := by
  unfold ouichefsUnlink at run
  rw [hd, Option.bind_some] at run
  cases hnode : w.icache ino with
  | none =>
    rw [hnode] at run
    cases run
  | some node =>
    rw [hnode, Option.bind_some] at run
    simp only at run
    split at run
    · cases run
      exact ⟨es, ⟨d, hd, rfl⟩, h, Or.inl rfl⟩
    have hfound := findSub_found h ne
    split at run
    · cases run
    · rename_i fId nrSubs hfind
      rw [hfind] at hfound
      obtain ⟨f, hf, hino⟩ := hfound.slot fId rfl
      have hlt : fId < es.length := (List.getElem?_eq_some_iff.mp hf).1
      have hcount : nrSubs = es.length := hfound.count
      obtain ⟨hindex, hwords⟩ := apart node hnode
      cases run
      refine ⟨es.eraseIdx fId, ?_, ?_, Or.inr ⟨fId, f, hf, hino, rfl⟩⟩
      · exact ⟨_, (modify_of_ne _ _ other.symm).trans
          ((congrFun (scrubBlocks_icache _ _ _) dir).trans (modify_self _ hd)), rfl⟩
      · change Packed ((scrubBlocks _ io node).disk d.indexBlock) _
        rw [scrubBlocks_disk hindex]
        · change Packed (w.disk.set d.indexBlock _ d.indexBlock) _
          rw [set_self, hcount]
          exact h.remove hlt
        · intro i hi
          change le32 (w.disk.set d.indexBlock _ node.indexBlock) _ = 0 ∨
            getBlockNumber (le32 (w.disk.set d.indexBlock _ node.indexBlock) _) ≠ d.indexBlock
          rw [set_of_ne _ _ hindex]
          exact hwords i hi

/-! ## Runs -/

/-- In a list without repetitions a window contains an element once if its place
is in the window. -/
theorem count_window {α : Type} [DecidableEq α] {l : List α} {i : Nat} {a : α} (nodup : l.Nodup)
    (at_ : l[i]? = some a) (c m : Nat) :
    ((l.drop c).take m).count a = if c ≤ i ∧ i < c + m then 1 else 0 := by
  obtain ⟨hi, rfl⟩ := List.getElem?_eq_some_iff.mp at_
  have hsub : ((l.drop c).take m).Nodup :=
    (List.take_sublist m (l.drop c)).nodup ((List.drop_sublist c l).nodup nodup)
  split
  · rename_i hin
    apply List.count_eq_one_of_mem hsub
    have hmem : ((l.drop c).take m)[i - c]? = some l[i] := by
      rw [List.getElem?_take_of_lt (by omega), List.getElem?_drop, Nat.add_sub_cancel' hin.1, at_]
    exact List.mem_of_getElem? hmem
  · rename_i hout
    apply List.count_eq_zero_of_not_mem
    intro hmem
    obtain ⟨k, hk, heq⟩ := List.getElem_of_mem hmem
    rw [List.length_take, List.length_drop] at hk
    rw [List.getElem_take, List.getElem_drop] at heq
    have := (List.Nodup.getElem_inj_iff nodup).mp heq
    omega

/-- The invariant of a listing: the entries in front of the cursor have been
handed over once, the others not at all. -/
structure Accurate (dir : Nat) (l : Progress) (d : Inode) (es : List DirFile) : Prop where
  cached : l.w.icache dir = some d
  packed : Packed (l.w.disk d.indexBlock) es
  distinct : (es.map DirFile.inode).Nodup
  counts : ∀ (i : Nat) (f : DirFile), es[i]? = some f →
    l.emitted.count (.file f) = if i < l.pos - 2 then 1 else 0

theorem Accurate.advance {dir : Nat} {l : Progress} {d : Inode} {es : List DirFile}
    (h : Accurate dir l d es) {r : IterateResult} (a : Advanced es l.pos r) (i : Nat) (f : DirFile)
    (at_ : es[i]? = some f) :
    (l.emitted ++ r.emitted).count (.file f) = if i < r.pos - 2 then 1 else 0 := by
  obtain ⟨dots, hemitted, hdots⟩ := a.files
  have hforward := a.forward
  have hinj : Function.Injective Dirent.file := fun _ _ heq => Dirent.file.inj heq
  rw [hemitted, List.count_append, List.count_append, List.count_eq_zero_of_not_mem (hdots f),
    List.count_map_of_injective _ _ hinj, count_window (List.Nodup.of_map _ h.distinct) at_,
    h.counts i f at_]
  split <;> split <;> split <;> omega

theorem ListStep.accurate {dir : Nat} {l l' : Progress} {d : Inode} {es : List DirFile}
    (h : Accurate dir l d es) (step : ListStep (Harmless dir) dir l l') :
    ∃ d' es', Accurate dir l' d' es' := by
  cases step with
  | iterate io room r run =>
    have ha := ouichefsIterate_advances h.packed h.cached run
    exact ⟨d, es, h.cached, h.packed, h.distinct, h.advance ha⟩
  | unlink io ino r other ne harmless run =>
    obtain ⟨es', hs⟩ := ouichefsUnlink_shrinks h.packed h.cached other ne
      (fun node hnode => harmless.apart d node h.cached hnode) run
    obtain ⟨d', hd', hindex⟩ := hs.cached
    refine ⟨d', es', hd', by rw [hindex]; exact hs.packed, ?_, ?_⟩
    · rcases hs.entries with rfl | ⟨j, f, _, _, rfl⟩
      · exact h.distinct
      · exact ((List.eraseIdx_sublist es j).map _).nodup h.distinct
    intro i f hf
    change l.emitted.count (.file f) = if i < l.pos - 2 then 1 else 0
    rcases hs.entries with rfl | ⟨j, g, hg, hino, rfl⟩
    · exact h.counts i f hf
    have hl := h.packed.length_le
    obtain ⟨hj, hjg⟩ := List.getElem?_eq_some_iff.mp hg
    have hslot : fileInode (l.w.disk d.indexBlock) j = ino := by
      rw [← hino, ← hjg, h.packed.getElem hj]
      rfl
    rw [List.getElem?_eraseIdx] at hf
    rcases harmless.cursor d h.cached with hbehind | hdone
    · -- the removed entry has not been listed, nor has what moves up
      have hj' : l.pos - 2 ≤ j := by
        by_contra hlt
        exact hbehind j (by omega) hslot
      split at hf
      · exact h.counts i f hf
      · rw [h.counts (i + 1) f hf, if_neg (by omega), if_neg (by omega)]
    · -- every entry has been listed
      have hall : es.length ≤ l.pos - 2 := by
        by_contra hlt
        exact h.packed.inode_ne_zero (show l.pos - 2 < es.length by omega)
          (hdone _ (Nat.le_refl _) (by omega))
      split at hf
      · exact h.counts i f hf
      · obtain ⟨hi, _⟩ := List.getElem?_eq_some_iff.mp hf
        rw [h.counts (i + 1) f hf, if_pos (by omega), if_pos (by omega)]

theorem run_accurate {dir : Nat} {l₀ l : Progress} {d : Inode} {es : List DirFile}
    (h : Accurate dir l₀ d es) (run : Relation.ReflTransGen (ListStep (Harmless dir) dir) l₀ l) :
    ∃ d' es', Accurate dir l d' es' := by
  induction run with
  | refl => exact ⟨d, es, h⟩
  | tail _ step ih =>
    obtain ⟨d', es', h'⟩ := ih
    exact step.accurate h'

/-- In a listing from the start to the end, whose removals are harmless, every
entry that is there at every call is handed over exactly once. -/
theorem listing_exact (dir : Nat) (w₀ : World) (d : Inode) (es : List DirFile) (l : Progress)
    (io : Io) (room : Nat) (r : IterateResult) (cached : w₀.icache dir = some d)
    (packed : Packed (w₀.disk d.indexBlock) es) (distinct : (es.map DirFile.inode).Nodup)
    (run : Relation.ReflTransGen (ListStep (Harmless dir) dir) (begin w₀) l)
    (last : ouichefsIterate l.w io dir l.pos room = some r) (ended : r.ended = true)
    (f : DirFile) (present : (l.after dir r).present f) :
    (l.after dir r).emitted.count (.file f) = 1 := by
  have hstart : Accurate dir (begin w₀) d es :=
    ⟨cached, packed, distinct, fun i f _ => by simp [begin]⟩
  obtain ⟨d', es', h⟩ := run_accurate hstart run
  have ha := ouichefsIterate_advances h.packed h.cached last
  obtain ⟨d'', hd, hentry⟩ := present.2
  rw [h.cached] at hd
  cases hd
  obtain ⟨i, hi, rfl⟩ := List.getElem_of_mem ((h.packed.entry_iff f).mpr hentry)
  have hcount := h.advance ha i _ (List.getElem?_eq_getElem hi)
  have hended := ha.ended ended
  rw [if_pos (by omega)] at hcount
  exact hcount

/-- A directory block with the files 2, 3 and 4. -/
def threeFiles : Buffer := fun o =>
  if o = 0 then 2 else if o = 4 then 97 else if o = 32 then 3 else if o = 36 then 98
  else if o = 64 then 4 else if o = 68 then 99 else 0

/-- A volume with the directory 1 in block 10 and empty files in the next ones. -/
def sampleDir : World where
  sbi := ⟨100, 102, 2, 1, 1, 98, 86, fun _ => false, fun b => decide (14 ≤ b ∧ b < 100)⟩
  disk := fun b => if b = 10 then threeFiles else fun _ => 0
  icache := fun i =>
    if i = 1 then some ⟨0o40755, 0, 0, 4096, ⟨0, 0⟩, ⟨0, 0⟩, ⟨0, 0⟩, 1, 2, 10⟩
    else if i = 2 ∨ i = 3 ∨ i = 4 then
      some ⟨0o100644, 0, 0, 0, ⟨0, 0⟩, ⟨0, 0⟩, ⟨0, 0⟩, 1, 1, 9 + i⟩
    else none

def sampleFiles : List DirFile := [dirFile threeFiles 0, dirFile threeFiles 1, dirFile threeFiles 2]

theorem sampleDir_packed : Packed threeFiles sampleFiles := by
  refine ⟨by decide, ?_, by decide, ?_⟩
  · intro i hi
    have hi : i < 3 := hi
    rcases (by omega : i = 0 ∨ i = 1 ∨ i = 2) with rfl | rfl | rfl <;> rfl
  · intro i hlo _ k _
    have hlo : 3 ≤ i := hlo
    unfold threeFiles
    repeat rw [if_neg (by omega)]

/-- The first call has room for the dots and one file. -/
def firstCall : IterateResult := ⟨3, [.dot, .dotDot, .file (dirFile threeFiles 0)], false, 0⟩

theorem sampleDir_first : ouichefsIterate sampleDir calmIo 1 0 3 = some firstCall := by
  decide +kernel

theorem inDirectory_of_slot {w : World} {dir i : Nat} {f : DirFile} (lt : i < maxSubfiles)
    (slot : (w.icache dir).map (fun d => dirFile (w.disk d.indexBlock) i) = some f)
    (ne : f.inode ≠ 0) : InDirectory w dir f := by
  obtain ⟨d, hd, hf⟩ := Option.map_eq_some_iff.mp slot
  exact ⟨d, hd, i, lt, hf, ne⟩

/-- A file is removed between the first and the last call; the file 3 is there
all the time. -/
theorem sampleDir_unlink (condition : Progress → Nat → Prop) {ino i : Nat} (out : IterateResult)
    (other : ino ≠ 1) (ne : ino ≠ 0) (lt : i < maxSubfiles)
    (harmless : condition ((begin sampleDir).after 1 firstCall) ino)
    (runs : (ouichefsUnlink sampleDir calmIo 1 ino).bind
      (fun r => (ouichefsIterate r.1 calmIo 1 3 10).bind fun out =>
        ((r.1.icache 1).map (fun d => dirFile (r.1.disk d.indexBlock) i)).map (fun f => (out, f))) =
      some (out, dirFile threeFiles 1)) :
    ∃ l, Relation.ReflTransGen (ListStep condition 1) (begin sampleDir) l ∧
      ouichefsIterate l.w calmIo 1 l.pos 10 = some out ∧
      (l.after 1 out).emitted = firstCall.emitted ++ out.emitted ∧
      (l.after 1 out).present (dirFile threeFiles 1) := by
  obtain ⟨r, hr, hrest⟩ := Option.bind_eq_some_iff.mp runs
  obtain ⟨out', hout, hslot⟩ := Option.bind_eq_some_iff.mp hrest
  obtain ⟨f, hf, heq⟩ := Option.map_eq_some_iff.mp hslot
  obtain ⟨rfl, rfl⟩ := Prod.mk.inj heq
  have hthere : InDirectory sampleDir 1 (dirFile threeFiles 1) :=
    inDirectory_of_slot (show 1 < maxSubfiles by decide) rfl (by decide)
  refine ⟨{ (begin sampleDir).after 1 firstCall with w := r.1 }, ?_, hout, rfl,
    ⟨trivial, hthere⟩, inDirectory_of_slot lt hf (by decide)⟩
  exact (Relation.ReflTransGen.single (.iterate _ calmIo 3 _ sampleDir_first)).tail
    (.unlink _ calmIo ino r other ne harmless hr)

/-- The file 4 is removed after the file 2 has been listed: the file 3 is listed
once. -/
theorem listing_exact_behind : ∃ (l : Progress) (r : IterateResult),
    Relation.ReflTransGen (ListStep (Harmless 1) 1) (begin sampleDir) l ∧
      ouichefsIterate l.w calmIo 1 l.pos 10 = some r ∧ r.ended = true ∧
      (l.after 1 r).emitted.count (.file (dirFile threeFiles 1)) = 1 := by
  have hharmless : Harmless 1 ((begin sampleDir).after 1 firstCall) 4 := by
    constructor
    · rintro d ⟨⟩
      refine Or.inl fun i hi => ?_
      have hi : i < 1 := hi
      obtain rfl : i = 0 := by omega
      decide
    · rintro d node ⟨⟩ ⟨⟩
      exact ⟨by decide, fun i hi => absurd hi (by simp [u64])⟩
  obtain ⟨l, hrun, hlast, _, hpresent⟩ := sampleDir_unlink (Harmless 1) (i := 1)
    ⟨4, [.file (dirFile threeFiles 1)], true, 0⟩ (by decide) (by decide) (by decide) hharmless
    (by decide +kernel)
  exact ⟨l, _, hrun, hlast, rfl, listing_exact 1 sampleDir _ sampleFiles l calmIo 10 _ rfl
    sampleDir_packed (by decide) hrun hlast rfl _ hpresent⟩

/-- The file 2 is removed after it has been listed: the file 3 takes its slot and
is never listed. -/
theorem listing_not_exact : Packed threeFiles sampleFiles ∧ (sampleFiles.map DirFile.inode).Nodup ∧
    ¬ ∀ (l : Progress) (io : Io) (room : Nat) (r : IterateResult) (f : DirFile),
      Relation.ReflTransGen (ListStep (fun _ _ => True) 1) (begin sampleDir) l →
      ouichefsIterate l.w io 1 l.pos room = some r → r.ended = true →
      (l.after 1 r).present f → (l.after 1 r).emitted.count (.file f) = 1 := by
  refine ⟨sampleDir_packed, by decide, ?_⟩
  intro hall
  obtain ⟨l, hrun, hlast, hemitted, hpresent⟩ := @sampleDir_unlink (fun _ _ => True) 2 0
    ⟨4, [.file (dirFile threeFiles 2)], true, 0⟩ (by decide) (by decide) (by decide) trivial
    (by decide +kernel)
  have hcount := hall l calmIo 10 _ _ hrun hlast rfl hpresent
  rw [hemitted] at hcount
  exact absurd hcount (by decide +kernel)

end Listing
