import OuicheFs.FileRun

/-!
# Reading a file in chunks

Successive calls of `ouichefs_light_read` continue at the updated position. A
call stops at a block with no byte behind the cursor, and the position search
puts a position at the end of a block into that block. So a stream of reads
that comes to a stop exactly at the end of a block delivers nothing more.
-/
namespace Streaming

open CInt ByteBuffer IndexEntry Allocator FileContext Layout Search OuicheFile OuicheWrite
  OuicheRead OuicheDefrag LightWrite Compaction FileRun

/-! ## One call -/

/-- The bytes the copy loop collects from the entries `L`, starting `lp` bytes
into the first one. -/
def gather (disk : Store) : List Word → Nat → Nat → List Byte
  | [], _, _ => []
  | e :: L, lp, remaining =>
    if remaining = 0 ∨ getBlockSize e - lp = 0 then []
    else
      let len := min (getBlockSize e - lp) remaining
      slice (disk (getBlockNumber e)) lp len ++ gather disk L 0 (remaining - len)

/-- A call reads and leaves the volume alone. -/
structure Calm (s t : Ctx) : Prop where
  disk : t.disk = s.disk
  node : t.node = s.node
  reads : t.io.NoReadFails
  copies : t.io.NoCopyFails

theorem Calm.trans {s t u : Ctx} (h : Calm s t) (h' : Calm t u) : Calm s u :=
  ⟨h'.disk.trans h.disk, h'.node.trans h.node, h'.reads, h'.copies⟩

theorem peek_eq_slice (before : Nat → Byte) (b : Buffer) (lp len : Nat) :
    peek before b (lp : Int) len = slice b lp len := by
  unfold peek slice
  apply List.map_congr_left
  intro k _
  have hnn : (0 : Int) ≤ (lp : Int) + k := by omega
  rw [if_pos hnn]
  congr 1

theorem lightReadLoop_eq (before : Nat → Byte) (L : List Word) :
    ∀ (s : Ctx) (k lp remaining : Nat), Calm s s →
      (∀ i, i < L.length → s.blocks (k + i) = L[i]?.getD 0) →
      (∀ e, L.head? = some e → lp ≤ getBlockSize e) →
      (lightReadLoop before L.length s k lp remaining).2 = gather s.disk L lp remaining ∧
        Calm s (lightReadLoop before L.length s k lp remaining).1 := by
  induction L with
  | nil =>
    intro s k lp remaining calm _ _
    exact ⟨rfl, calm⟩
  | cons e L ih =>
    intro s k lp remaining calm hblocks hlp
    have hk : s.blocks k = e := by simpa using hblocks 0 (by simp)
    have hat : (s.touch k).blocks k = e := hk
    have hle : lp ≤ getBlockSize e := hlp e rfl
    have hs := getBlockSize_le e
    have hread : ¬ (s.touch k).io.bread 0 = false := by
      rw [show (s.touch k).io.bread 0 = true from calm.reads 0]
      decide
    have hcopy : ¬ (s.touch k).popBread.io.ucopy 0 ≠ none := fun h => h (calm.copies 0)
    have havail : u64 ((getBlockSize e : Int) - lp) = getBlockSize e - lp := u64_sub hle (by omega)
    have hnext : Calm s (s.touch k).popBread := ⟨rfl, rfl, fun n => calm.reads (n + 1), calm.copies⟩
    rw [List.length_cons, lightReadLoop, gather]
    by_cases hrem : remaining = 0
    · rw [if_pos hrem, if_pos (Or.inl hrem)]
      exact ⟨rfl, calm⟩
    rw [if_neg hrem]
    simp only [hat, if_neg hread, havail]
    by_cases hdry : getBlockSize e - lp = 0
    · rw [if_pos hdry, if_pos (Or.inr hdry)]
      exact ⟨rfl, hnext⟩
    rw [if_neg hdry, if_neg hcopy, if_neg (not_or.mpr ⟨hrem, hdry⟩)]
    have hpop : Calm s (s.touch k).popBread.popUcopy :=
      ⟨rfl, rfl, fun n => calm.reads (n + 1), fun n => calm.copies (n + 1)⟩
    obtain ⟨hdata, hcalm⟩ := ih (s.touch k).popBread.popUcopy (k + 1) 0
      (remaining - min (getBlockSize e - lp) remaining) ⟨rfl, rfl, hpop.reads, hpop.copies⟩
      (by
        intro i hi
        have hslot : s.blocks (k + (i + 1)) = L[i]?.getD 0 := hblocks (i + 1) (by simpa using hi)
        rw [show k + 1 + i = k + (i + 1) by omega]
        exact hslot)
      (fun _ _ => Nat.zero_le _)
    refine ⟨?_, hpop.trans hcalm⟩
    rw [peek_eq_slice]
    simp only [Nat.cast_zero] at hdata
    rw [hdata]
    rfl

/-- The entries from the cursor on and the offset in the first of them. -/
inductive Cut (es : List Word) : Nat → List Word → Nat → Prop
  | start : Cut es 0 es 0
  | inside {A : List Word} {e : Word} {B : List Word} {p : Nat} :
      es = A ++ e :: B → 1 ≤ p → p ≤ getBlockSize e → Cut es (total A + p) (e :: B) p

theorem Cut.le_head {es L : List Word} {pos p : Nat} (h : Cut es pos L p) :
    ∀ e, L.head? = some e → p ≤ getBlockSize e := by
  intro d hd
  cases h with
  | start => exact Nat.zero_le _
  | inside _ _ hle =>
    cases hd
    exact hle

theorem Cut.offset {es A L : List Word} {pos p : Nat} (h : Cut es pos L p) (split : es = A ++ L) :
    pos = total A + p := by
  cases h with
  | start =>
    rw [List.self_eq_append_left.mp split]
    rfl
  | inside hes _ _ => rw [List.append_cancel_right (hes.symm.trans split)]

theorem Cut.nowhere {es L : List Word} {pos p : Nat} (h : Cut es pos L p) (nil : L = []) :
    es = [] ∧ pos = 0 := by
  cases h with
  | start => exact ⟨nil, rfl⟩
  | inside _ _ _ => cases nil

/-- Only the first block is entered at its start. -/
theorem Cut.first {es A L : List Word} {pos p : Nat} (h : Cut es pos L p) (split : es = A ++ L) :
    A = [] ∨ 1 ≤ p := by
  cases h with
  | start => exact Or.inl (List.self_eq_append_left.mp split)
  | inside _ hp _ => exact Or.inr hp

section

variable {s : Ctx} {es : List Word} {before : Nat → Byte} {fFlags size pos : Nat}

/-- The position search splits the entries at the cursor. -/
theorem findBlockPos_cut (shape : Shape s es) (le : pos ≤ total es) :
    ∃ A L p, es = A ++ L ∧ Cut es pos L p ∧
      findBlockPos pos s.blocks (i32 ((s.node.iBlocks : Int) - 1)) = some (A.length, (p : Int)) := by
  rcases Nat.eq_zero_or_pos pos with rfl | hpos
  · exact ⟨[], es, 0, rfl, Cut.start, findBlockPos_zero _ _⟩
  · obtain ⟨A, e, B, p, hf, hrun⟩ := findBlockPos_found shape hpos le
    have hoff := hf.offset
    subst hoff
    exact ⟨A, e :: B, p, hf.split, Cut.inside hf.split hf.pos hf.le, hrun⟩

/-- The words of the entries from the cursor on. -/
theorem blocks_behind {A L : List Word} (shape : Shape s es) (split : es = A ++ L) :
    ∀ i, i < L.length → s.blocks (A.length + i) = L[i]?.getD 0 := by
  intro i hi
  have hl := shape.length_le
  have hlen : es.length = A.length + L.length := by rw [split, List.length_append]
  have hslot := shape.slots (A.length + i) (by omega)
  rwa [split, List.getElem?_append_right (by omega), Nat.add_sub_cancel_left] at hslot

theorem count_behind {A L : List Word} (shape : Shape s es) (split : es = A ++ L) :
    (i32 ((s.node.iBlocks : Int) - 1) - (A.length : Int)).toNat = L.length := by
  have hlen : es.length = A.length + L.length := by rw [split, List.length_append]
  rw [shape.nbBlocks]
  omega

/-- What a call returns that comes to the copy loop. -/
theorem ouichefsLightRead_loop (before : Nat → Byte) (fFlags size : Nat) {lbi : Nat} {lp : Int}
    (readable : readFlags fFlags = true) (index : s.io.bread 0 = true)
    (found : findBlockPos pos s.blocks (i32 ((s.node.iBlocks : Int) - 1)) = some (lbi, lp))
    {r : Ctx × List Byte}
    (run : lightReadLoop before (i32 ((s.node.iBlocks : Int) - 1) - (lbi : Int)).toNat s.popBread
      lbi lp size = r) :
    ouichefsLightRead before s fFlags size pos = ⟨r.1, r.2.length, pos + r.2.length, r.2⟩ := by
  have hfound : findBlockPos pos s.popBread.blocks
      (i32 ((s.popBread.node.iBlocks : Int) - 1)) = some (lbi, lp) := found
  have hrun : lightReadLoop before (i32 ((s.popBread.node.iBlocks : Int) - 1) - (lbi : Int)).toNat
      s.popBread lbi lp size = r := run
  unfold ouichefsLightRead
  rw [if_neg (by simp [readable]), if_neg (by simp [index])]
  simp only [hfound, hrun]

/-- The loop runs over the entries from the cursor on. -/
theorem ouichefsLightRead_run {A L : List Word} {p : Nat} (shape : Shape s es) (calm : Calm s s)
    (readable : readFlags fFlags = true) (split : es = A ++ L) (cut : Cut es pos L p)
    (found : findBlockPos pos s.blocks (i32 ((s.node.iBlocks : Int) - 1)) =
      some (A.length, (p : Int))) :
    ∃ t, Calm s t ∧ ouichefsLightRead before s fFlags size pos =
      ⟨t, (gather s.disk L p size).length, pos + (gather s.disk L p size).length,
        gather s.disk L p size⟩ := by
  have hcalm : Calm s s.popBread := ⟨rfl, rfl, fun n => calm.reads (n + 1), calm.copies⟩
  have hself : Calm s.popBread s.popBread := ⟨rfl, rfl, hcalm.reads, hcalm.copies⟩
  obtain ⟨hdata, hcalm'⟩ := lightReadLoop_eq before L s.popBread A.length p size hself
    (blocks_behind (s := s) shape split) cut.le_head
  have hdata' : (lightReadLoop before L.length s.popBread A.length p size).2 =
    gather s.disk L p size := hdata
  have hrun := ouichefsLightRead_loop before fFlags size readable (calm.reads 0) found
    rfl
  rw [count_behind shape split, hdata'] at hrun
  exact ⟨_, hcalm.trans hcalm', hrun⟩

theorem ouichefsLightRead_eq (shape : Shape s es) (calm : Calm s s)
    (readable : readFlags fFlags = true) (le : pos ≤ total es) :
    ∃ L p t, Cut es pos L p ∧ Calm s t ∧
      ouichefsLightRead before s fFlags size pos =
        ⟨t, (gather s.disk L p size).length, pos + (gather s.disk L p size).length,
          gather s.disk L p size⟩ := by
  obtain ⟨A, L, p, hsplit, hcut, hfound⟩ := findBlockPos_cut shape le
  obtain ⟨t, hcalm, hrun⟩ := ouichefsLightRead_run shape calm readable hsplit hcut hfound
  exact ⟨L, p, t, hcut, hcalm, hrun⟩

end

/-! ## What a call collects -/

section

variable (disk : Store)

theorem gather_starts (L : List Word) : ∀ (lp remaining : Nat),
    (∀ e, L.head? = some e → lp ≤ getBlockSize e) →
    gather disk L lp remaining <+: (bytesOf disk L).drop lp ∧
      (gather disk L lp remaining).length ≤ remaining := by
  induction L with
  | nil =>
    intro lp remaining _
    exact ⟨List.nil_prefix, Nat.zero_le _⟩
  | cons e L ih =>
    intro lp remaining hlp
    have hle : lp ≤ getBlockSize e := hlp e rfl
    rw [gather]
    split
    · exact ⟨List.nil_prefix, Nat.zero_le _⟩
    obtain ⟨len, hlen⟩ : ∃ len, len = min (getBlockSize e - lp) remaining := ⟨_, rfl⟩
    obtain ⟨hpre, hbound⟩ := ih 0 (remaining - len) (fun _ _ => Nat.zero_le _)
    simp only [← hlen]
    constructor
    · have hdrop : (bytesOf disk (e :: L)).drop lp =
          slice (disk (getBlockNumber e)) lp (getBlockSize e - lp) ++ bytesOf disk L := by
        rw [bytesOf_cons, List.drop_append_of_le_length (by simpa using hle), entryBytes,
          slice_drop _ _ hle, Nat.zero_add]
      rw [hdrop]
      by_cases hall : len = getBlockSize e - lp
      · rw [hall]
        rw [hall] at hpre
        exact (List.prefix_append_right_inj _).mpr (by simpa using hpre)
      · have hz : remaining - len = 0 := by omega
        have hnil : gather disk L 0 (remaining - len) = [] := by
          rw [hz]
          cases L <;> simp [gather]
        rw [hnil, List.append_nil]
        have htake := slice_take (disk (getBlockNumber e)) lp
          (show len ≤ getBlockSize e - lp by omega)
        rw [← htake]
        exact (List.take_prefix _ _).trans (List.prefix_append _ _)
    · rw [List.length_append, slice_length]
      omega

/-- A run without an empty entry before its last byte is read to its end. -/
theorem gather_full (L : List Word) : ∀ (lp remaining : Nat),
    (∀ A e B, L = A ++ e :: B → total A < total L → getBlockSize e ≠ 0) →
    (total L = lp ∨ ∃ e B, L = e :: B ∧ lp < getBlockSize e) →
    (∀ e, L.head? = some e → lp ≤ getBlockSize e) →
    (gather disk L lp remaining).length = min remaining (total L - lp) := by
  induction L with
  | nil =>
    intro lp remaining _ _ _
    simp [gather]
  | cons e L ih =>
    intro lp remaining hfilled hopen hlp
    have hle : lp ≤ getBlockSize e := hlp e rfl
    rw [gather, total_cons]
    by_cases hstop : remaining = 0 ∨ getBlockSize e - lp = 0
    · rw [if_pos hstop]
      rcases hstop with hz | hz
      · simp [hz]
      · have htot : getBlockSize e + total L = lp := by
          rcases hopen with h | ⟨d, B, hd, hlt⟩
          · simpa using h
          · cases hd
            omega
        simp [htot]
    rw [if_neg hstop]
    simp only [not_or] at hstop
    have hrest : total L = 0 ∨ ∃ d B, L = d :: B ∧ 0 < getBlockSize d := by
      cases L with
      | nil => exact Or.inl rfl
      | cons d B =>
        by_cases hz : total (d :: B) = 0
        · exact Or.inl hz
        · refine Or.inr ⟨d, B, rfl, Nat.pos_of_ne_zero ?_⟩
          refine hfilled [e] d B rfl ?_
          simp only [total_cons, total_nil] at hz ⊢
          omega
    have hnext := ih 0 (remaining - min (getBlockSize e - lp) remaining)
      (by
        intro A d B hL hlt
        refine hfilled (e :: A) d B (by rw [hL]; rfl) ?_
        simp only [total_cons]
        omega)
      hrest (fun _ _ => Nat.zero_le _)
    rw [List.length_append, slice_length, hnext]
    omega

/-- No call gets past an empty entry. -/
theorem gather_blocked (A : List Word) {e : Word} {B : List Word} (empty : getBlockSize e = 0) :
    ∀ (lp remaining : Nat), (∀ d, (A ++ e :: B).head? = some d → lp ≤ getBlockSize d) →
      (gather disk (A ++ e :: B) lp remaining).length ≤ total A - lp := by
  induction A with
  | nil =>
    intro lp remaining _
    rw [List.nil_append, gather, if_pos (Or.inr (by omega))]
    exact Nat.zero_le _
  | cons a A ih =>
    intro lp remaining hlp
    have hle : lp ≤ getBlockSize a := hlp a rfl
    rw [List.cons_append, gather]
    split
    · exact Nat.zero_le _
    · have := ih 0 (remaining - min (getBlockSize a - lp) remaining) (fun _ _ => Nat.zero_le _)
      rw [List.length_append, slice_length, total_cons]
      omega

end

/-! ## A stream of calls -/

/-- Read chunk after chunk until a call returns 0. -/
def readStream (before : Nat → Byte) (fFlags : Nat) (chunks : Nat → Nat) :
    Nat → Nat → Ctx → Nat → Option (List Byte)
  | 0, _, _, _ => none
  | fuel + 1, k, s, pos =>
    let r := ouichefsLightRead before s fFlags (chunks k) pos
    if r.ret = 0 then some []
    else (readStream before fFlags chunks fuel (k + 1) r.ctx r.pos).map (r.data ++ ·)

/-- The stream ends and has delivered the content. -/
def Delivers (before : Nat → Byte) (fFlags : Nat) (chunks : Nat → Nat) (s : Ctx) : Prop :=
  ∃ fuel, readStream before fFlags chunks fuel 0 s 0 = some s.content

def chunkSum (chunks : Nat → Nat) : Nat → Nat
  | 0 => 0
  | k + 1 => chunkSum chunks k + chunks k

/-- No entry before the last byte is empty, and no call of the stream starts at
the end of a block inside the file. -/
structure Streamable (es : List Word) (chunks : Nat → Nat) : Prop where
  filled : ∀ A e B, es = A ++ e :: B → total A < total es → getBlockSize e ≠ 0
  inside : ∀ k A B, es = A ++ B → A ≠ [] → chunkSum chunks k = total A → total es ≤ total A

/-- One call of the stream, on the list of entries. -/
theorem Cut.prefix_content {es L : List Word} {pos p : Nat} (h : Cut es pos L p) (disk : Store) :
    (bytesOf disk L).drop p = (bytesOf disk es).drop pos := by
  cases h with
  | start => rfl
  | @inside A e B p hes _ _ =>
    rw [hes, bytesOf_append, List.drop_append, bytesOf_length]
    simp

theorem Cut.left {es L : List Word} {pos p : Nat} (h : Cut es pos L p) :
    total L - p = total es - pos := by
  cases h with
  | start => rfl
  | @inside A e B p hes _ _ =>
    rw [hes, total_append]
    omega

/-- The entries from the cursor on inherit the absence of empty entries. -/
theorem Cut.filled {es L : List Word} {pos p : Nat} (h : Cut es pos L p)
    (filled : ∀ A e B, es = A ++ e :: B → total A < total es → getBlockSize e ≠ 0) :
    ∀ A e B, L = A ++ e :: B → total A < total L → getBlockSize e ≠ 0 := by
  intro A e B hL hlt
  cases h with
  | start => exact filled A e B hL hlt
  | @inside A' d B' p hes _ _ =>
    refine filled (A' ++ A) e B (by rw [hes, hL, List.append_assoc]) ?_
    rw [hes, total_append, total_append]
    omega

/-- The end of a block inside the file is a dead end. -/
theorem Cut.dry {es L A B : List Word} {pos p : Nat} (h : Cut es pos L p) (disk : Store)
    (hes : es = A ++ B) (ne : A ≠ []) (at_ : pos = total A) (size : Nat) :
    gather disk L p size = [] := by
  cases h with
  | start =>
    obtain ⟨a, A, rfl⟩ := List.exists_cons_of_ne_nil ne
    have hz : getBlockSize a - 0 = 0 := by
      rw [total_cons] at at_
      omega
    rw [hes, List.cons_append, gather, if_pos (Or.inr hz)]
  | @inside A' e B' p hes' hp hle =>
    have hlen : A'.length < A.length := by
      by_contra hge
      have hpre : A <+: A' := by
        refine List.prefix_of_prefix_length_le ⟨B, hes.symm⟩ ⟨e :: B', hes'.symm⟩ ?_
        omega
      obtain ⟨C, hC⟩ := hpre
      have := congrArg total hC
      rw [total_append] at this
      omega
    have htot := total_le_of_split (hes'.symm.trans hes) hlen
    rw [gather, if_pos (Or.inr (by omega))]

/-- No call that starts before an empty entry gets past it. -/
theorem Cut.blocked {es L A B : List Word} {e : Word} {pos p : Nat} (h : Cut es pos L p)
    (disk : Store) (hes : es = A ++ e :: B) (empty : getBlockSize e = 0) (le : pos ≤ total A)
    (size : Nat) : pos + (gather disk L p size).length ≤ total A := by
  cases h with
  | start =>
    have := gather_blocked disk A (B := B) empty 0 size (fun _ _ => Nat.zero_le _)
    rw [hes]
    omega
  | @inside A' d B' p hes' hp hle =>
    have hlen : A'.length < A.length := by
      by_contra hge
      have hpre : A <+: A' := by
        refine List.prefix_of_prefix_length_le ⟨e :: B, hes.symm⟩ ⟨d :: B', hes'.symm⟩ ?_
        omega
      obtain ⟨C, hC⟩ := hpre
      have := congrArg total hC
      rw [total_append] at this
      omega
    have hpre : A' <+: A :=
      List.prefix_of_prefix_length_le ⟨d :: B', hes'.symm⟩ ⟨e :: B, hes.symm⟩ (by omega)
    obtain ⟨C, rfl⟩ := hpre
    have hL : d :: B' = C ++ e :: B := by
      rw [hes', List.append_assoc] at hes
      exact List.append_cancel_left hes
    have := gather_blocked disk C (B := B) empty p size (by
      intro f hf
      rw [← hL] at hf
      cases hf
      exact hle)
    rw [← hL] at this
    rw [total_append] at le ⊢
    omega

section

variable {s : Ctx} {es : List Word} {before : Nat → Byte} {fFlags : Nat} {chunks : Nat → Nat}

/-- The state of a stream: nothing about the file has changed. -/
structure Unmoved (s₀ : Ctx) (es : List Word) (s : Ctx) : Prop where
  shape : Shape s es
  disk : s.disk = s₀.disk
  calm : Calm s s

theorem Unmoved.next {s₀ t : Ctx} (h : Unmoved s₀ es s) (c : Calm s t) :
    Unmoved s₀ es t := by
  refine ⟨h.shape.congr ?_ (by rw [c.node]) (by rw [c.node]), c.disk.trans h.disk,
    ⟨rfl, rfl, c.reads, c.copies⟩⟩
  intro i _
  exact blocks_congr (by rw [c.node]) (by rw [c.disk]) i

/-- One step of a stream: it ends at a dead end, or goes on behind the bytes
that were collected. -/
theorem readStream_step {s₀ : Ctx} (h : Unmoved s₀ es s) (readable : readFlags fFlags = true)
    {pos : Nat} (le : pos ≤ total es) (k : Nat) :
    ∃ L p t, Cut es pos L p ∧ Unmoved s₀ es t ∧ ∀ fuel,
      readStream before fFlags chunks (fuel + 1) k s pos =
        if gather s₀.disk L p (chunks k) = [] then some []
        else (readStream before fFlags chunks fuel (k + 1) t
          (pos + (gather s₀.disk L p (chunks k)).length)).map
            (gather s₀.disk L p (chunks k) ++ ·) := by
  obtain ⟨L, p, t, hcut, hcalm, hrun⟩ := ouichefsLightRead_eq h.shape h.calm readable le
  rw [h.disk] at hrun
  refine ⟨L, p, t, hcut, h.next hcalm, ?_⟩
  intro fuel
  rw [readStream, hrun]
  by_cases hnil : gather s₀.disk L p (chunks k) = []
  · simp [hnil]
  · have hne : ¬ (((gather s₀.disk L p (chunks k)).length : Nat) : Int) = 0 := by
      have := List.length_pos_iff.mpr hnil
      omega
    rw [if_neg hnil, if_neg hne]

/-- A stream that meets the condition delivers the rest of the content. -/
theorem readStream_delivers {s₀ : Ctx} (readable : readFlags fFlags = true)
    (positive : ∀ k, 0 < chunks k) (ok : Streamable es chunks) :
    ∀ (n k pos : Nat) (s : Ctx), Unmoved s₀ es s → total es - pos ≤ n →
      pos = min (chunkSum chunks k) (total es) →
      ∃ fuel, readStream before fFlags chunks fuel k s pos =
        some ((bytesOf s₀.disk es).drop pos) := by
  intro n
  induction n with
  | zero =>
    intro k pos s h hn hpos
    have hend : pos = total es := by omega
    obtain ⟨L, p, t, hcut, _, hstep⟩ := readStream_step
      h readable (Nat.le_of_eq hend) k
    obtain ⟨hpre, _⟩ := gather_starts s₀.disk L p (chunks k) hcut.le_head
    have hnil : (bytesOf s₀.disk es).drop pos = [] :=
      List.drop_of_length_le (by rw [bytesOf_length]; omega)
    rw [hcut.prefix_content, hnil] at hpre
    refine ⟨1, ?_⟩
    rw [hstep 0, if_pos (List.prefix_nil.mp hpre), hnil]
  | succ n ih =>
    intro k pos s h hn hpos
    by_cases hend : pos = total es
    · exact ih k pos s h (by omega) hpos
    have hle : pos ≤ total es := by omega
    have hsum : pos = chunkSum chunks k := by omega
    obtain ⟨L, p, t, hcut, ht, hstep⟩ := @readStream_step _ _ before _ chunks _
      h readable _ hle k
    have hopen : total L = p ∨ ∃ e B, L = e :: B ∧ p < getBlockSize e := by
      right
      cases hcut with
      | start =>
        cases es with
        | nil =>
          rw [total_nil] at hend
          exact absurd rfl hend
        | cons e B =>
          have := ok.filled [] e B rfl (by rw [total_nil]; omega)
          exact ⟨e, B, rfl, by omega⟩
      | @inside A e B p hes hp hpe =>
        refine ⟨e, B, rfl, ?_⟩
        by_contra hge
        have hbound := ok.inside k (A ++ [e]) B (by rw [hes]; simp) (by simp)
          (by simp only [total_append, total_cons, total_nil]; omega)
        simp only [total_append, total_cons, total_nil] at hbound
        omega
    have hfull := gather_full s₀.disk L p (chunks k) (hcut.filled ok.filled) hopen hcut.le_head
    rw [hcut.left] at hfull
    clear hopen
    obtain ⟨hpre, _⟩ := gather_starts s₀.disk L p (chunks k) hcut.le_head
    rw [hcut.prefix_content] at hpre
    obtain ⟨rest, hrest⟩ := hpre
    have hchunk := positive k
    obtain ⟨data, hdata⟩ : ∃ data, data = gather s₀.disk L p (chunks k) := ⟨_, rfl⟩
    rw [← hdata] at hfull hrest
    obtain ⟨fuel, hfuel⟩ := ih (k + 1) (pos + data.length) t ht (by omega)
      (by rw [chunkSum]; omega)
    refine ⟨fuel + 1, ?_⟩
    have hne : data ≠ [] := List.length_pos_iff.mp (by omega)
    rw [hstep fuel, ← hdata, if_neg hne, hfuel, Option.map_some, ← List.drop_drop, ← hrest,
      List.drop_left]

/-- An empty entry before the last byte is never passed. -/
theorem readStream_blocked {s₀ : Ctx} {A B : List Word} {e : Word}
    (readable : readFlags fFlags = true) (hes : es = A ++ e :: B)
    (empty : getBlockSize e = 0) :
    ∀ (fuel k pos : Nat) (s : Ctx) (out : List Byte), Unmoved s₀ es s → pos ≤ total A →
      readStream before fFlags chunks fuel k s pos = some out → pos + out.length ≤ total A := by
  intro fuel
  induction fuel with
  | zero =>
    intro k pos s out _ _ hrun
    cases hrun
  | succ fuel ih =>
    intro k pos s out h hle hrun
    have htot : pos ≤ total es := by
      rw [hes, total_append]
      omega
    obtain ⟨L, p, t, hcut, ht, hstep⟩ := readStream_step
      h readable htot k
    have hblock := hcut.blocked s₀.disk hes empty hle (chunks k)
    rw [hstep fuel] at hrun
    split at hrun
    · cases hrun
      simpa using hle
    · obtain ⟨out', hout', rfl⟩ := Option.map_eq_some_iff.mp hrun
      have := ih (k + 1) _ t out' ht hblock hout'
      rw [List.length_append]
      omega

/-- A stream that is going to start a call at the end of a block inside the
file stops there or before. -/
theorem readStream_stops {s₀ : Ctx} {A B : List Word} {j : Nat}
    (readable : readFlags fFlags = true)
    (filled : ∀ A e B, es = A ++ e :: B → total A < total es → getBlockSize e ≠ 0)
    (hes : es = A ++ B) (ne : A ≠ []) (at_ : chunkSum chunks j = total A)
    (short : total A < total es) :
    ∀ (n k : Nat) (s : Ctx) (out : List Byte) (fuel : Nat), Unmoved s₀ es s → k + n = j →
      readStream before fFlags chunks fuel k s (chunkSum chunks k) = some out →
      chunkSum chunks k + out.length < total es := by
  have hmono : ∀ n k, chunkSum chunks k ≤ chunkSum chunks (k + n) := by
    intro n
    induction n with
    | zero => exact fun k => le_refl _
    | succ n ih =>
      intro k
      have := ih k
      rw [← Nat.add_assoc, chunkSum]
      omega
  intro n
  induction n with
  | zero =>
    intro k s out fuel h hk hrun
    have hkj : k = j := by omega
    subst hkj
    obtain ⟨fuel, rfl⟩ : ∃ f, fuel = f + 1 := by
      cases fuel with
      | zero => cases hrun
      | succ f => exact ⟨f, rfl⟩
    obtain ⟨L, p, t, hcut, _, hstep⟩ := readStream_step
      h readable (show chunkSum chunks k ≤ total es by omega) k
    rw [hstep fuel, if_pos (hcut.dry s₀.disk hes ne at_ _)] at hrun
    cases hrun
    simp only [List.length_nil]
    omega
  | succ n ih =>
    intro k s out fuel h hk hrun
    have hle := hmono (n + 1) k
    rw [hk, at_] at hle
    have hnext := hmono n (k + 1)
    rw [show k + 1 + n = j by omega, at_, chunkSum] at hnext
    obtain ⟨fuel, rfl⟩ : ∃ f, fuel = f + 1 := by
      cases fuel with
      | zero => cases hrun
      | succ f => exact ⟨f, rfl⟩
    obtain ⟨L, p, t, hcut, ht, hstep⟩ := readStream_step
      h readable (show chunkSum chunks k ≤ total es by omega) k
    rw [hstep fuel] at hrun
    split at hrun
    · cases hrun
      simp only [List.length_nil]
      omega
    rename_i hdata
    obtain ⟨out', hout', rfl⟩ := Option.map_eq_some_iff.mp hrun
    -- the call was not at a dead end, so it collected the whole chunk
    have hopen : total L = p ∨ ∃ e B, L = e :: B ∧ p < getBlockSize e := by
      cases L with
      | nil => exact absurd rfl hdata
      | cons e L =>
        refine Or.inr ⟨e, L, rfl, ?_⟩
        by_contra hge
        apply hdata
        rw [gather, if_pos (Or.inr (by omega))]
    have hfull := gather_full s₀.disk L p (chunks k) (hcut.filled filled) hopen hcut.le_head
    rw [hcut.left] at hfull
    have hlen : (gather s₀.disk L p (chunks k)).length = chunks k := by omega
    rw [hlen] at hout'
    have := ih (k + 1) t out' fuel ht (by omega) hout'
    rw [chunkSum] at this
    rw [List.length_append]
    omega

theorem Unmoved.delivers {s : Ctx} (hs : Unmoved s es s) (readable : readFlags fFlags = true)
    (positive : ∀ k, 0 < chunks k) : Delivers before fFlags chunks s ↔ Streamable es chunks := by
  have hcontent := hs.shape.content_eq
  constructor
  · rintro ⟨fuel, hrun⟩
    have hlen : s.content.length = total es := by rw [hcontent, bytesOf_length]
    have hfilled : ∀ A e B, es = A ++ e :: B → total A < total es → getBlockSize e ≠ 0 := by
      intro A e B hes hlt hz
      have := readStream_blocked readable hes hz fuel 0 0 s _ hs (Nat.zero_le _) hrun
      omega
    refine ⟨hfilled, ?_⟩
    intro k A B hes hne hsum
    by_contra hlt
    have := readStream_stops readable hfilled hes hne hsum (by omega) k 0 s _ fuel hs (by omega) hrun
    rw [chunkSum] at this
    omega
  · intro ok
    obtain ⟨fuel, hrun⟩ := readStream_delivers readable positive ok (total es) 0 0 s hs
      (by omega) (by rw [chunkSum]; omega)
    refine ⟨fuel, ?_⟩
    rw [hcontent]
    exact hrun

end

/-- Runs of complete writes that are not empty and of defragmentations, complete or not.
The blocks that the writes take have numbers that an entry can record. -/
inductive StreamRun (s₀ : Ctx) : Ctx → Prop
  | start : StreamRun s₀ s₀
  | write (s : Ctx) (io : Io) (fFlags pos : Nat) (data : List Byte) :
      StreamRun s₀ s → Addressable s.sbi (neededBlocks s data.length (startPos s fFlags pos)) →
      data ≠ [] → (ouichefsLightWrite { s with io := io } fFlags data pos).ret = data.length →
      StreamRun s₀ (ouichefsLightWrite { s with io := io } fFlags data pos).ctx
  | defrag (s : Ctx) (io : Io) (fuel : Nat) (r : Ctx × Int) :
      StreamRun s₀ s → ouichefsDefrag fuel { s with io := io } = some r → StreamRun s₀ r.1

section

variable {es : List Word}

/-- What every step keeps, on a volume of any size. -/
structure StreamInv (s : Ctx) (es : List Word) : Prop where
  shape : Shape s es
  held : Held s es
  size : s.node.iSize = total es

theorem StreamInv.withIo {s : Ctx} (h : StreamInv s es) (io : Io) :
    StreamInv { s with io := io } es :=
  ⟨h.shape.congr (fun _ _ => rfl) rfl rfl, ⟨h.held.ok, h.held.data, h.held.index⟩, h.size⟩

theorem StreamInv.defrag {s : Ctx} {fuel : Nat} {r : Ctx × Int} (h : StreamInv s es)
    (run : ouichefsDefrag fuel s = some r) : ∃ es', StreamInv r.1 es' := by
  obtain ⟨_, hpost⟩ := ouichefsDefrag_spec h.shape (fun b hb => Nat.le_of_lt (h.held.data b hb).lt)
    h.size
  rcases hpost fuel r run with ⟨_, es', freed, hc⟩ | ⟨_, _, es', rest, _, hk, _⟩
  · obtain ⟨n, mt, ct, hnode⟩ := hc.node
    exact ⟨es', hc.shape, Compacted.held hc h.held h.shape, by rw [hc.size, hnode]; exact h.size⟩
  · exact ⟨es', hk.shape, Kept.held hk h.held, by rw [hk.node, h.size, hk.size]⟩

theorem streamRun_inv {s₀ s : Ctx} (new : NewFile s₀) (run : StreamRun s₀ s) :
    ∃ es, StreamInv s es := by
  induction run with
  | start => exact ⟨[], new.shape, new.held, new.iSize⟩
  | write s io fFlags pos data _ fits _ _ ih =>
    obtain ⟨es, hinv⟩ := ih
    have hio := hinv.withIo io
    obtain ⟨fresh, es', g, m, w⟩ := ouichefsLightWrite_spec hio.shape hio.held
      hio.size fFlags fits
    exact ⟨es', w.shape, w.held, w.size⟩
  | defrag s io fuel r _ hrun ih =>
    obtain ⟨es, hinv⟩ := ih
    exact (hinv.withIo io).defrag hrun

end

/-- In every file that such a run leads to, a stream of reads delivers the content if and
only if no entry before the last byte is empty and no call starts at the end of a block
inside the file. -/
theorem delivers_iff (s₀ s : Ctx) (new : NewFile s₀) (run : StreamRun s₀ s) (io : Io)
    (reads : io.NoReadFails) (copies : io.NoCopyFails) (before : Nat → Byte) (fFlags : Nat)
    (readable : readFlags fFlags = true) (chunks : Nat → Nat) (positive : ∀ k, 0 < chunks k) :
    Delivers before fFlags chunks { s with io := io } ↔ Streamable s.entries chunks := by
  obtain ⟨es, hinv⟩ := streamRun_inv new run
  have hio := hinv.withIo io
  rw [hinv.shape.entries_eq]
  exact Unmoved.delivers ⟨hio.shape, rfl, ⟨rfl, rfl, reads, copies⟩⟩ readable positive

/-- Two bytes, and one that is inserted between them: two blocks. -/
def insertedCtx : Ctx :=
  (ouichefsLightWrite
    { (ouichefsLightWrite { freshCtx with io := calmIo } 1 [66, 67] 0).ctx with io := calmIo }
    1 [68] 1).ctx

theorem insertedCtx_run : StreamRun freshCtx insertedCtx := by
  have hsmall : ∀ s : Ctx, s.sbi.nrBlocks ≤ 524288 → ∀ n, Addressable s.sbi n := fun s h n =>
    addressable_of_small h n
  refine .write _ calmIo 1 1 [68] (.write freshCtx calmIo 1 0 [66, 67] .start ?_ ?_ ?_) ?_ ?_ ?_
  · exact hsmall _ (by decide) _
  · decide
  · decide +kernel
  · exact hsmall _ (by decide +kernel) _
  · decide
  · decide +kernel

/-- Defragmented, the three bytes are in one block and are delivered in chunks of two. -/
theorem delivers_iff_tidied : insertedCtx.entries.length = 2 ∧
    ∃ r, ouichefsDefrag 10 { insertedCtx with io := calmIo } = some r ∧
      Delivers (fun _ => 0) 0 (fun _ => 2) { r.1 with io := calmIo } := by
  refine ⟨by decide +kernel, ?_⟩
  have hrun : (ouichefsDefrag 10 { insertedCtx with io := calmIo }).map
      (fun r => r.1.entries.map getBlockSize) = some [3] := by
    decide +kernel
  obtain ⟨r, hr, hentries⟩ := Option.map_eq_some_iff.mp hrun
  refine ⟨r, hr, (delivers_iff freshCtx r.1 freshCtx_new (.defrag _ calmIo 10 r insertedCtx_run hr)
    calmIo (fun _ => rfl) (fun _ => rfl) (fun _ => 0) 0 (by decide) (fun _ => 2)
    (fun _ => by decide)).mpr ?_⟩
  obtain ⟨e, heq⟩ : ∃ e, r.1.entries = [e] :=
    List.length_eq_one_iff.mp (by simpa using congrArg List.length hentries)
  rw [heq] at hentries ⊢
  constructor
  · intro A z B hes _
    have hmem : z ∈ [e] := by
      rw [hes]
      simp
    rw [List.mem_singleton.mp hmem, (List.cons.inj hentries).1]
    decide
  · intro k A B hes hne _
    have hlen := congrArg List.length hes
    have hpos := List.length_pos_iff.mpr hne
    simp only [List.length_append, List.length_cons, List.length_nil] at hlen
    have hB : B = [] := List.eq_nil_of_length_eq_zero (by omega)
    rw [hes, hB, List.append_nil]

/-- A new file into which 4097 bytes have been written. -/
def twoBlockCtx : Ctx :=
  { (ouichefsLightWrite freshCtx 1 (List.replicate 4097 66) 0).ctx with io := calmIo }

def twoBlocks : List Word := [setBlockSize (freshEntry 10) 4096, setBlockSize (freshEntry 11) 1]

theorem twoBlockCtx_inv : FileInv twoBlockCtx twoBlocks := by
  have hinv := freshCtx_new.inv (by decide)
  obtain ⟨fresh, es, g, m, w⟩ := ouichefsLightWrite_spec
    hinv.shape hinv.held hinv.size 1 (addressable_of_small hinv.small _)
  have hfile : FileInv twoBlockCtx es := (Written.inv w hinv.small).withIo calmIo
  obtain rfl : es = twoBlocks := by
    rw [← hfile.shape.entries_eq]
    decide +kernel
  exact hfile

/-- Read in chunks of a block, the file ends for the reader after the first one. -/
theorem delivers_not_always :
    NewFile freshCtx ∧
      (ouichefsLightWrite freshCtx 1 (List.replicate 4097 66) 0).ret = 4097 ∧
      ¬ Delivers (fun _ => 0) 0 (fun _ => 4096) twoBlockCtx := by
  refine ⟨freshCtx_new, by decide +kernel, ?_⟩
  rintro ⟨fuel, hrun⟩
  have hshape := twoBlockCtx_inv.shape
  have hs : Unmoved twoBlockCtx twoBlocks twoBlockCtx :=
    ⟨hshape, rfl, ⟨rfl, rfl, fun _ => rfl, fun _ => rfl⟩⟩
  have htotal : total twoBlocks = 4097 := by decide +kernel
  have hshort := @readStream_stops twoBlocks (fun _ => 0) 0 (fun _ => 4096) _
    [setBlockSize (freshEntry 10) 4096] [setBlockSize (freshEntry 11) 1] 1
    (by decide) (fun A e B hAB _ => ?_) rfl (by simp) (by decide +kernel)
    (by rw [htotal]; decide +kernel) 1 0 twoBlockCtx _ fuel hs rfl hrun
  · rw [hshape.content_eq, bytesOf_length, chunkSum] at hshort
    omega
  · have hmem : e ∈ twoBlocks := by
      rw [hAB]
      simp
    rcases List.mem_cons.mp hmem with rfl | hmem
    · decide +kernel
    · rw [List.mem_singleton.mp hmem]
      decide +kernel

end Streaming
