import OuicheFs.FileSystem
import Mathlib.Algebra.Order.Ring.Nat

/-!
# Reading a file after its defragmentation

All blocks but the last are full then, so the ends of the blocks, where
`ouichefs_light_read` finds nothing, lie at the multiples of 4096. Everywhere else a
read returns all it is asked for.
-/
namespace CompactRead

open CInt Bits ByteBuffer IndexEntry Allocator FileContext Layout OuicheFile OuicheDefrag OuicheInode
  OuicheSuper OuicheRead Mkfs FileRun Compaction Streaming Ownership VolumeRun Hierarchy WholeVolume
  FileSystem FileTree Overlap

/-- No block has room that an earlier place in the file could use. -/
structure Compact (es : List Word) : Prop where
  full : ∀ f ∈ es.dropLast, getBlockSize f = 4096
  positive : ∀ f ∈ es, 0 < getBlockSize f

section

variable {es L : List Word} {pos p : Nat}

theorem Compact.total_front (c : Compact es) {A B : List Word} {e : Word} (split : es = A ++ e :: B) :
    total A = 4096 * A.length := by
  have hfull : ∀ f ∈ A, getBlockSize f = 4096 := by
    intro f hf
    refine c.full f ?_
    rw [split, List.dropLast_append_of_ne_nil (by simp)]
    exact List.mem_append_left _ hf
  clear split
  induction A with
  | nil => rfl
  | cons a A ih =>
    rw [total_cons, hfull a List.mem_cons_self, ih fun f hf => hfull f (List.mem_cons_of_mem a hf),
      List.length_cons]
    omega

/-- The ends of the blocks in front of the end of the file. -/
theorem Compact.ends_iff (c : Compact es) (lt : pos < total es) :
    (∃ A B, es = A ++ B ∧ A ≠ [] ∧ pos = total A) ↔ 0 < pos ∧ pos % 4096 = 0 := by
  constructor
  · rintro ⟨A, B, split, ne, rfl⟩
    cases B with
    | nil =>
      rw [split, List.append_nil] at lt
      exact absurd lt (Nat.lt_irrefl _)
    | cons e B =>
      rw [c.total_front split]
      have := List.length_pos_iff.mpr ne
      omega
  · rintro ⟨hpos, hmod⟩
    have hle := total_le es
    have hk : pos / 4096 < es.length := by omega
    have hsplit : es = es.take (pos / 4096) ++ es[pos / 4096] :: es.drop (pos / 4096 + 1) := by
      rw [← List.drop_eq_getElem_cons hk, List.take_append_drop]
    have hlen : (es.take (pos / 4096)).length = pos / 4096 := List.length_take_of_le (by omega)
    refine ⟨es.take (pos / 4096), _, hsplit, ?_, ?_⟩
    · intro hnil
      rw [hnil, List.length_nil] at hlen
      omega
    · rw [c.total_front hsplit, hlen]
      omega

theorem Compact.filled (c : Compact es) :
    ∀ A e B, es = A ++ e :: B → total A < total es → getBlockSize e ≠ 0 := by
  intro A e B split _
  have := c.positive e (by rw [split]; exact List.mem_append_right _ List.mem_cons_self)
  omega

/-- One read of a compact file. -/
theorem Compact.gather_eq (c : Compact es) (cut : Cut es pos L p) (le : pos ≤ total es)
    (disk : Store) (size : Nat) : gather disk L p size =
      if 0 < pos ∧ pos % 4096 = 0 then [] else ((bytesOf disk es).drop pos).take size := by
  obtain ⟨hpre, _⟩ := gather_starts disk L p size cut.le_head
  rw [cut.prefix_content] at hpre
  rcases Nat.eq_or_lt_of_le le with hend | hlt
  · have hnil : (bytesOf disk es).drop pos = [] :=
      List.drop_of_length_le (by rw [bytesOf_length]; omega)
    rw [hnil] at hpre ⊢
    rw [List.prefix_nil.mp hpre, List.take_nil, ite_self]
  by_cases hedge : 0 < pos ∧ pos % 4096 = 0
  · obtain ⟨A, B, split, ne, heq⟩ := (c.ends_iff hlt).mpr hedge
    rw [if_pos hedge, cut.dry disk split ne heq]
  rw [if_neg hedge]
  have hopen : total L = p ∨ ∃ e B, L = e :: B ∧ p < getBlockSize e := by
    right
    cases cut with
    | start =>
      cases es with
      | nil => exact absurd hlt (Nat.lt_irrefl _)
      | cons e B => exact ⟨e, B, rfl, c.positive e List.mem_cons_self⟩
    | @inside A e B p split hp hle =>
      refine ⟨e, B, rfl, ?_⟩
      by_contra hge
      refine hedge ((c.ends_iff hlt).mp ⟨A ++ [e], B, by rw [split]; simp, by simp, ?_⟩)
      rw [total_append, total_cons, total_nil]
      omega
  have hlen := gather_full disk L p size (cut.filled c.filled) hopen cut.le_head
  rw [cut.left] at hlen
  rw [List.prefix_iff_eq_take.mp hpre, hlen]
  have hbytes : ((bytesOf disk es).drop pos).length = total es - pos := by
    rw [List.length_drop, bytesOf_length]
  rw [← hbytes]
  exact (List.take_eq_take_min ..).symm

end

/-! ## After a defragmentation -/

section

variable {s : Ctx} {es : List Word} {before : Nat → Byte} {fFlags : Nat}

theorem compact_of_defrag (h : FileInv s es) {fuel : Nat} {r : Ctx × Int}
    (run : ouichefsDefrag fuel s = some r) (done : r.2 = 0) (apart : Drainable s) :
    ∃ es', FileInv r.1 es' ∧ Compact es' ∧ bytesOf r.1.disk es' = bytesOf s.disk es ∧
      total es' = s.node.iSize := by
  obtain ⟨es', htidied, hdone, _⟩ := defrag_tidied h run
  obtain ⟨hfull, hpositive⟩ := hdone done
  refine ⟨es', htidied.effect.inv, ⟨hfull, hpositive⟩, htidied.bytes apart, ?_⟩
  rw [htidied.size, h.size]

theorem chunkSum_const (chunk k : Nat) : chunkSum (fun _ => chunk) k = k * chunk := by
  induction k with
  | zero => rw [chunkSum, Nat.zero_mul]
  | succ k ih => rw [chunkSum, ih, Nat.succ_mul]

/-- A stream of equal chunks meets the end of a block first at the least common multiple. -/
theorem Compact.streams_iff (c : Compact es) (h : Unmoved s es s) (readable : readFlags fFlags = true)
    {chunk : Nat} (positive : 0 < chunk) :
    (∃ fuel, readStream before fFlags (fun _ => chunk) fuel 0 s 0 = some (bytesOf s.disk es)) ↔
      total es ≤ Nat.lcm chunk 4096 := by
  constructor
  · rintro ⟨fuel, hrun⟩
    by_contra hlt
    rw [Nat.not_le] at hlt
    obtain ⟨j, hj⟩ := Nat.dvd_lcm_left chunk 4096
    obtain ⟨k, hk⟩ := Nat.dvd_lcm_right chunk 4096
    have hpos : 0 < Nat.lcm chunk 4096 := Nat.lcm_pos positive (by decide)
    obtain ⟨A, B, split, ne, hend⟩ := (c.ends_iff hlt).mpr ⟨hpos, by omega⟩
    have hsum : chunkSum (fun _ => chunk) j = total A := by
      rw [chunkSum_const, Nat.mul_comm, ← hj, hend]
    have hstop := readStream_stops readable c.filled split ne hsum (by omega) j 0 s _ fuel h
      (by omega) hrun
    rw [chunkSum, bytesOf_length] at hstop
    omega
  · intro hle
    have hstream : Streamable es fun _ => chunk := by
      refine ⟨c.filled, ?_⟩
      intro k A B split ne hsum
      by_contra hlt
      rw [Nat.not_le] at hlt
      obtain ⟨hpos, hmod⟩ := (c.ends_iff hlt).mp ⟨A, B, split, ne, rfl⟩
      have hdvd : Nat.lcm chunk 4096 ∣ total A := by
        refine Nat.lcm_dvd ?_ (Nat.dvd_of_mod_eq_zero hmod)
        rw [← hsum, chunkSum_const]
        exact Nat.dvd_mul_left chunk k
      have := Nat.le_of_dvd hpos hdvd
      omega
    exact readStream_delivers readable (fun _ => positive) hstream (total es) 0 0 s h (by omega)
      (by rw [chunkSum]; omega)

end

/-- The second block of the sample goes into the first one. -/
theorem sampleDefrag : ∃ image w₀ w dirty calls node r,
    mkfs (fun _ => true) 409600 (fun _ => zeroBlock) = some image ∧
    ouichefsFillSuper image ⟨0, 0, true⟩ (fun _ => true) (fun _ => true) = .ok w₀ ∧
    Loop.Run FsStep (clean w₀) calls ⟨w, dirty⟩ ∧ live w 2 = some node ∧
    sIsreg node.iMode = true ∧ Drainable (w.ctx node calmIo) ∧
    ouichefsDefrag 10 (w.ctx node calmIo) = some r ∧ r.2 = 0 ∧ node.iSize = 3 ∧
    node.iBlocks = 3 ∧ r.1.node.iBlocks = 2 ∧ (w.ctx node calmIo).content = [66, 68, 67] := by
  have hsample : (sampleFile.bind fun p => (live p.2 2).bind fun node =>
      (ouichefsDefrag 10 (p.2.ctx node calmIo)).map fun r =>
        decide (Drainable (p.2.ctx node calmIo)) && decide (r.2 = 0) &&
          decide (node.iSize = 3 ∧ node.iBlocks = 3 ∧ r.1.node.iBlocks = 2) &&
          decide ((p.2.ctx node calmIo).content = [66, 68, 67])) = some true := by
    decide +kernel
  obtain ⟨image, w₀, w, dirty, node, himage, hw₀, hrun, hfile, hlive, hreg⟩ := sampleFile_run
  rw [hfile, Option.bind_some, hlive, Option.bind_some] at hsample
  obtain ⟨r, hr, hall⟩ := Option.map_eq_some_iff.mp hsample
  simp only [Bool.and_eq_true, decide_eq_true_eq] at hall
  obtain ⟨⟨⟨hapart, hdone⟩, hsize, hblocks, hone⟩, hcontent⟩ := hall
  exact ⟨image, w₀, w, dirty, _, node, r, himage, hw₀, hrun.mono fun _ _ _ h => h.1, hlive, hreg,
    hapart, hr, hdone, hsize, hblocks, hone, hcontent⟩

/-- After a defragmentation a read returns all bytes from its position on, up to the size
asked for, unless it starts at the end of a block: there it returns none. -/
theorem compact_read (ok : Nat → Bool) (stSize : Nat) (disk image : Store) (who : Caller)
    (readable : Nat → Bool) (memory : Fin 4 → Bool) (w₀ w : World) (dirty : Nat → Bool)
    (calls : List (Call Nat Name Byte)) (formatted : mkfs ok stSize disk = some image)
    (mount : ouichefsFillSuper image who readable memory = .ok w₀)
    (small : stSize / 4096 ≤ 524288) (run : Loop.Run FsStep (clean w₀) calls ⟨w, dirty⟩)
    (ino : Nat) (node : Inode)
    (own : live w ino = some node) (reg : sIsreg node.iMode = true) (io io' : Io) (fuel : Nat)
    (r : Ctx × Int) (apart : Drainable (w.ctx node io))
    (defrag : ouichefsDefrag fuel (w.ctx node io) = some r) (done : r.2 = 0)
    (before : Nat → Byte) (fFlags size pos : Nat) (flags : readFlags fFlags = true)
    (reads : io'.NoReadFails) (copies : io'.NoCopyFails) (le : pos ≤ node.iSize) :
    (ouichefsLightRead before { r.1 with io := io' } fFlags size pos).data =
        (if 0 < pos ∧ pos % 4096 = 0 then []
          else ((w.ctx node io).content.drop pos).take size) ∧
      (ouichefsLightRead before { r.1 with io := io' } fFlags size pos).ret =
        (ouichefsLightRead before { r.1 with io := io' } fFlags size pos).data.length ∧
      (ouichefsLightRead before { r.1 with io := io' } fFlags size pos).pos =
        pos + (ouichefsLightRead before { r.1 with io := io' } fFlags size pos).data.length := by
  obtain ⟨⟨⟨t, h⟩, _⟩, _⟩ := run_session (formatted_session formatted mount small) run
  obtain ⟨es, hinv, _⟩ := h.world.fileInv own reg io
  obtain ⟨es', hinv', hcompact, hbytes, htotal⟩ := compact_of_defrag hinv defrag done apart
  have hsize : total es' = node.iSize := htotal
  have hio := hinv'.withIo io'
  obtain ⟨L, p, u, hcut, _, hread⟩ := @ouichefsLightRead_eq { r.1 with io := io' } es' before fFlags
    size pos hio.shape ⟨rfl, rfl, reads, copies⟩ flags (by omega)
  rw [hread]
  refine ⟨?_, rfl, rfl⟩
  rw [hinv.shape.content_eq, ← hbytes]
  exact hcompact.gather_eq hcut (by omega) r.1.disk size

theorem compact_read_sample : ∃ r : Ctx, r.node.iBlocks = 2 ∧
    (ouichefsLightRead (fun _ => 0) { r with io := calmIo } 0 5 1).data = [68, 67] := by
  obtain ⟨image, w₀, w, dirty, calls, node, r, himage, hw₀, hrun, hn, hreg, hapart, hdefrag, hdone,
    hsize, _, hone, hcontent⟩ := sampleDefrag
  obtain ⟨hdata, _⟩ := compact_read _ _ _ _ _ _ _ w₀ w dirty calls himage hw₀ (by decide) hrun 2 node
    hn hreg calmIo calmIo 10 r hapart hdefrag hdone (fun _ => 0) 0 5 1 rfl (fun _ => rfl)
    (fun _ => rfl) (by omega)
  rw [hcontent] at hdata
  exact ⟨r.1, hone, hdata⟩

/-- A program that reads a defragmented file in chunks of one size gets all of it if and
only if the file is not longer than the least common multiple of that size and
4096. -/
theorem compact_stream (ok : Nat → Bool) (stSize : Nat) (disk image : Store) (who : Caller)
    (readable : Nat → Bool) (memory : Fin 4 → Bool) (w₀ w : World) (dirty : Nat → Bool)
    (calls : List (Call Nat Name Byte)) (formatted : mkfs ok stSize disk = some image)
    (mount : ouichefsFillSuper image who readable memory = .ok w₀)
    (small : stSize / 4096 ≤ 524288) (run : Loop.Run FsStep (clean w₀) calls ⟨w, dirty⟩)
    (ino : Nat) (node : Inode)
    (own : live w ino = some node) (reg : sIsreg node.iMode = true) (io io' : Io) (fuel : Nat)
    (r : Ctx × Int) (apart : Drainable (w.ctx node io))
    (defrag : ouichefsDefrag fuel (w.ctx node io) = some r) (done : r.2 = 0)
    (before : Nat → Byte) (fFlags chunk : Nat) (flags : readFlags fFlags = true)
    (reads : io'.NoReadFails) (copies : io'.NoCopyFails) (positive : 0 < chunk) :
    (∃ n, readStream before fFlags (fun _ => chunk) n 0 { r.1 with io := io' } 0 =
        some (w.ctx node io).content) ↔ node.iSize ≤ Nat.lcm chunk 4096 := by
  obtain ⟨⟨⟨t, h⟩, _⟩, _⟩ := run_session (formatted_session formatted mount small) run
  obtain ⟨es, hinv, _⟩ := h.world.fileInv own reg io
  obtain ⟨es', hinv', hcompact, hbytes, htotal⟩ := compact_of_defrag hinv defrag done apart
  have hsize : total es' = node.iSize := htotal
  have hunmoved : Unmoved { r.1 with io := io' } es' { r.1 with io := io' } :=
    ⟨(hinv'.withIo io').shape, rfl, ⟨rfl, rfl, reads, copies⟩⟩
  rw [hinv.shape.content_eq, ← hsize]
  rw [show bytesOf (w.ctx node io).disk es = bytesOf r.1.disk es' from hbytes.symm]
  exact hcompact.streams_iff hunmoved flags positive

theorem compact_stream_sample : ∃ r : Ctx, r.node.iBlocks = 2 ∧
    ∃ n, readStream (fun _ => 0) 0 (fun _ => 2) n 0 { r with io := calmIo } 0 =
      some [66, 68, 67] := by
  obtain ⟨image, w₀, w, dirty, calls, node, r, himage, hw₀, hrun, hn, hreg, hapart, hdefrag, hdone,
    hsize, _, hone, hcontent⟩ := sampleDefrag
  have hiff := compact_stream _ _ _ _ _ _ _ w₀ w dirty calls himage hw₀ (by decide) hrun 2 node hn
    hreg calmIo calmIo 10 r hapart hdefrag hdone (fun _ => 0) 0 2 rfl (fun _ => rfl) (fun _ => rfl)
    (by decide)
  rw [hcontent, hsize] at hiff
  exact ⟨r.1, hone, hiff.mpr (by decide)⟩

end CompactRead
