import OuicheFs.FileContext
import Mathlib.Data.List.Nodup
import Mathlib.Data.List.Perm.Basic

/-!
# Insert-mode files as lists of entries

`Shape s es` says that the index block holds exactly the entries `es`, packed
from slot 0 on, on pairwise different blocks other than the index block. The
blocks are in use on the volume by `Held`. Contents and sizes are functions of
the list alone, so the operations can be followed on lists.
-/
namespace Layout

open Bits CInt ByteBuffer IndexEntry Allocator FileContext

theorem blocks_congr {s s' : Ctx} (node : s'.node.indexBlock = s.node.indexBlock)
    (disk : s'.disk s.node.indexBlock = s.disk s.node.indexBlock) (i : Nat) :
    s'.blocks i = s.blocks i := by
  simp only [Ctx.blocks, node, disk]

@[simp] theorem blocks_setBlocks_self (s : Ctx) (i : Nat) (e : Word) :
    (s.setBlocks i e).blocks i = e := by
  simp [Ctx.blocks, Ctx.setBlocks]

theorem blocks_setBlocks_of_ne (s : Ctx) {i j : Nat} (e : Word) (h : j ≠ i) :
    (s.setBlocks i e).blocks j = s.blocks j := by
  simp only [Ctx.blocks, Ctx.setBlocks, set_self]
  exact le32_putLe32_of_disjoint _ _ (by omega)

theorem disk_setBlocks_of_ne (s : Ctx) (i : Nat) (e : Word) {b : Nat}
    (h : b ≠ s.node.indexBlock) : (s.setBlocks i e).disk b = s.disk b := by
  simp [Ctx.setBlocks, set_of_ne _ _ h]

@[simp] theorem node_copyFromUser (s : Ctx) (dst off len : Nat) (src : Nat → Byte) :
    (s.copyFromUser dst off len src).1.node = s.node := by
  unfold Ctx.copyFromUser
  split <;> rfl

/-- The slots accessed on the way from `s` to `t` are below `n`. -/
def Below (n : Nat) (s t : Ctx) : Prop := ∀ i ∈ t.touched, i ∈ s.touched ∨ (0 ≤ i ∧ i < n)

section

variable {n : Nat} {s t u : Ctx}

theorem Below.of_eq (h : t.touched = s.touched) : Below n s t := fun _ hi => Or.inl (h ▸ hi)

theorem Below.refl (n : Nat) (s : Ctx) : Below n s s := Below.of_eq rfl

theorem Below.trans (h : Below n s t) (h' : Below n t u) : Below n s u := by
  intro i hi
  rcases h' i hi with hold | hnew
  · exact h i hold
  · exact Or.inr hnew

theorem Below.touch (s : Ctx) {i : Nat} (lt : i < n) : Below n s (s.touch i) := by
  intro j hj
  rcases List.mem_cons.mp hj with rfl | hold
  · exact Or.inr ⟨Int.natCast_nonneg i, Int.ofNat_lt.mpr lt⟩
  · exact Or.inl hold

theorem Below.setBlocks (s : Ctx) {i : Nat} (e : Word) (lt : i < n) :
    Below n s (s.setBlocks i e) := Below.touch s lt

theorem Below.copyFromUser (s : Ctx) (dst off len : Nat) (src : Nat → Byte) :
    Below n s (s.copyFromUser dst off len src).1 := by
  apply Below.of_eq
  unfold Ctx.copyFromUser
  split <;> rfl

end

@[simp] theorem entryBytes_length (disk : Store) (e : Word) :
    (entryBytes disk e).length = getBlockSize e := by
  simp [entryBytes]

@[simp] theorem bytesOf_nil (disk : Store) : bytesOf disk [] = [] := rfl

@[simp] theorem bytesOf_cons (disk : Store) (e : Word) (es : List Word) :
    bytesOf disk (e :: es) = entryBytes disk e ++ bytesOf disk es := by
  simp [bytesOf]

@[simp] theorem bytesOf_append (disk : Store) (es fs : List Word) :
    bytesOf disk (es ++ fs) = bytesOf disk es ++ bytesOf disk fs := by
  simp [bytesOf]

@[simp] theorem total_nil : total [] = 0 := rfl

@[simp] theorem total_cons (e : Word) (es : List Word) :
    total (e :: es) = getBlockSize e + total es := by
  simp [total]

@[simp] theorem total_append (es fs : List Word) :
    total (es ++ fs) = total es + total fs := by
  simp [total]

@[simp] theorem bytesOf_length (disk : Store) (es : List Word) :
    (bytesOf disk es).length = total es := by
  induction es with
  | nil => rfl
  | cons e es ih => simp [ih]

theorem total_le (es : List Word) : total es ≤ 4096 * es.length := by
  induction es with
  | nil => simp
  | cons e es ih =>
    have := getBlockSize_le e
    simp only [total_cons, List.length_cons]
    omega

theorem entryBytes_congr {d d' : Store} {e e' : Word}
    (size : getBlockSize e' = getBlockSize e)
    (bytes : ∀ k, k < getBlockSize e →
      d' (getBlockNumber e') k = d (getBlockNumber e) k) :
    entryBytes d' e' = entryBytes d e := by
  unfold entryBytes
  rw [size]
  exact slice_congr fun k hk => by simpa using bytes k hk

theorem bytesOf_congr {d d' : Store} {es : List Word}
    (h : ∀ e ∈ es, d' (getBlockNumber e) = d (getBlockNumber e)) :
    bytesOf d' es = bytesOf d es := by
  apply List.flatMap_congr
  intro e he
  exact entryBytes_congr rfl fun k _ => by rw [h e he]

theorem total_of_sizes_zero {es : List Word} (h : ∀ e ∈ es, getBlockSize e = 0) :
    total es = 0 := by
  induction es with
  | nil => rfl
  | cons e es ih =>
    rw [total_cons, h e List.mem_cons_self,
      ih (fun f hf => h f (List.mem_cons_of_mem e hf))]

theorem sizes_zero_of_total {es : List Word} (h : total es = 0) :
    ∀ e ∈ es, getBlockSize e = 0 := by
  intro e he
  obtain ⟨A, B, rfl⟩ := List.append_of_mem he
  simp only [total_append, total_cons] at h
  omega

/-- Of two splits of one list, the shorter front ends a whole entry earlier. -/
theorem total_le_of_split {A B A' B' : List Word} {e : Word} (h : A ++ e :: B = A' ++ B')
    (lt : A.length < A'.length) : total A + getBlockSize e ≤ total A' := by
  have hpre : A ++ [e] <+: A' := by
    refine List.prefix_of_prefix_length_le ⟨B, ?_⟩ ⟨B', rfl⟩ ?_
    · rw [← h, List.append_assoc]
      rfl
    · rw [List.length_append, List.length_singleton]
      exact lt
  obtain ⟨C, rfl⟩ := hpre
  simp only [total_append, total_cons, total_nil]
  omega

theorem bytesOf_of_sizes_zero (disk : Store) {es : List Word}
    (h : ∀ e ∈ es, getBlockSize e = 0) : bytesOf disk es = [] := by
  apply List.eq_nil_of_length_eq_zero
  rw [bytesOf_length, total_of_sizes_zero h]

/-- The block numbers a list of entries names. -/
def numbers (es : List Word) : List Nat := es.map getBlockNumber

@[simp] theorem numbers_nil : numbers [] = [] := rfl

@[simp] theorem numbers_cons (e : Word) (es : List Word) :
    numbers (e :: es) = getBlockNumber e :: numbers es := rfl

@[simp] theorem numbers_append (es fs : List Word) :
    numbers (es ++ fs) = numbers es ++ numbers fs := by
  simp [numbers]

theorem mem_numbers_of_mem {e : Word} {es : List Word} (h : e ∈ es) :
    getBlockNumber e ∈ numbers es := List.mem_map_of_mem h

structure Shape (s : Ctx) (es : List Word) : Prop where
  length_le : es.length ≤ 1024
  slots : ∀ i, i < 1024 → s.blocks i = es[i]?.getD 0
  iBlocks : s.node.iBlocks = es.length + 1
  distinct : (numbers es).Nodup
  apart : s.node.indexBlock ∉ numbers es

/-- The slots of the index alone, whatever blocks they name. -/
structure Slots (s : Ctx) (es : List Word) : Prop where
  length_le : es.length ≤ 1024
  slots : ∀ i, i < 1024 → s.blocks i = es[i]?.getD 0
  iBlocks : s.node.iBlocks = es.length + 1

theorem Shape.toSlots {s : Ctx} {es : List Word} (h : Shape s es) : Slots s es :=
  ⟨h.length_le, h.slots, h.iBlocks⟩

theorem Slots.shape {s : Ctx} {es : List Word} (h : Slots s es) (distinct : (numbers es).Nodup)
    (apart : s.node.indexBlock ∉ numbers es) : Shape s es :=
  ⟨h.length_le, h.slots, h.iBlocks, distinct, apart⟩

/-- The index block and the data blocks are in use on a volume whose counter
is right. -/
structure Held (s : Ctx) (es : List Word) : Prop where
  ok : BlocksOk s.sbi
  data : ∀ b ∈ numbers es, Used s.sbi b
  index : Used s.sbi s.node.indexBlock

/-- The `n` lowest free blocks fit the number field of an entry. The allocator
takes the lowest ones first. -/
def Addressable (sbi : SbInfo) (n : Nat) : Prop :=
  ∀ b, b < sbi.nrBlocks → sbi.bfreeBitmap b = true → popcount sbi.bfreeBitmap b < n →
    b < 524288

theorem addressable_of_small {sbi : SbInfo} (h : sbi.nrBlocks ≤ 524288) (n : Nat) :
    Addressable sbi n := fun _ hb _ _ => Nat.lt_of_lt_of_le hb h

theorem Addressable.mono {sbi : SbInfo} {m n : Nat} (h : Addressable sbi n) (hle : m ≤ n) :
    Addressable sbi m := fun b hb hfree hm => h b hb hfree (Nat.lt_of_lt_of_le hm hle)

theorem Slots.blocks_at {s : Ctx} {A B : List Word} {e : Word}
    (h : Slots s (A ++ e :: B)) : s.blocks A.length = e := by
  have hl := h.length_le
  simp only [List.length_append, List.length_cons] at hl
  rw [h.slots A.length (by omega)]
  simp

theorem Shape.blocks_at {s : Ctx} {A B : List Word} {e : Word}
    (h : Shape s (A ++ e :: B)) : s.blocks A.length = e := h.toSlots.blocks_at

theorem Shape.ne_index {s : Ctx} {es : List Word} (h : Shape s es) {e : Word}
    (he : e ∈ es) : getBlockNumber e ≠ s.node.indexBlock := by
  intro heq
  exact h.apart (heq ▸ mem_numbers_of_mem he)

theorem Shape.entries_eq {s : Ctx} {es : List Word} (h : Shape s es) : s.entries = es := by
  have hl := h.length_le
  apply List.ext_getElem
  · simp [Ctx.entries, h.iBlocks]
  · intro i hi hi'
    simp only [Ctx.entries, List.getElem_map, List.getElem_range]
    rw [h.slots i (by omega)]
    simp [List.getElem?_eq_getElem hi']

/-- The sizes recorded in all slots but the last one. -/
theorem Shape.full_slot {s : Ctx} {es : List Word} (h : Shape s es) {n : Nat}
    (full : ∀ e ∈ es.dropLast, getBlockSize e = n) {i : Nat} (hi : i + 1 < es.length) :
    getBlockSize (s.blocks i) = n := by
  have hl := h.length_le
  have hlt : i < es.dropLast.length := by
    rw [List.length_dropLast]
    omega
  have hmem : es.dropLast[i] ∈ es.dropLast := List.getElem_mem hlt
  rw [List.getElem_dropLast] at hmem
  rw [h.slots i (by omega), List.getElem?_eq_getElem (show i < es.length by omega)]
  exact full _ hmem

/-- The number of data blocks, as the callers narrow it. -/
theorem Slots.nbBlocks {s : Ctx} {es : List Word} (h : Slots s es) :
    i32 ((s.node.iBlocks : Int) - 1) = es.length := by
  have hl := h.length_le
  rw [h.iBlocks, i32_eq_self (by omega) (by omega)]
  omega

theorem Shape.nbBlocks {s : Ctx} {es : List Word} (h : Shape s es) :
    i32 ((s.node.iBlocks : Int) - 1) = es.length := h.toSlots.nbBlocks

theorem Shape.content_eq {s : Ctx} {es : List Word} (h : Shape s es) :
    s.content = bytesOf s.disk es := by
  rw [Ctx.content, h.entries_eq]

/-- The blocks of the other entries are different ones. -/
theorem Shape.others_ne {s : Ctx} {A B : List Word} {e : Word} (h : Shape s (A ++ e :: B)) :
    (∀ f ∈ A, getBlockNumber f ≠ getBlockNumber e) ∧
      (∀ f ∈ B, getBlockNumber f ≠ getBlockNumber e) := by
  have hd := h.distinct
  simp only [numbers_append, numbers_cons] at hd
  obtain ⟨_, hB, hdis⟩ := List.nodup_append.mp hd
  constructor
  · intro f hf heq
    exact hdis _ (mem_numbers_of_mem hf) (getBlockNumber e) List.mem_cons_self heq
  · intro f hf heq
    exact (List.nodup_cons.mp hB).1 (heq ▸ mem_numbers_of_mem hf)

/-- The shape depends on the index words, the block count and the number of
the index block only. -/
theorem Shape.congr {s s' : Ctx} {es : List Word} (h : Shape s es)
    (blocks : ∀ i, i < 1024 → s'.blocks i = s.blocks i)
    (iBlocks : s'.node.iBlocks = s.node.iBlocks)
    (index : s'.node.indexBlock = s.node.indexBlock) : Shape s' es :=
  ⟨h.length_le, fun i hi => (blocks i hi).trans (h.slots i hi), iBlocks.trans h.iBlocks,
    h.distinct, index ▸ h.apart⟩

theorem getElem?_replace {A B : List Word} {i : Nat} (e e' : Word) (h : i ≠ A.length) :
    (A ++ e' :: B)[i]? = (A ++ e :: B)[i]? := by
  rcases Nat.lt_or_ge i A.length with hlt | hge
  · rw [List.getElem?_append_left hlt, List.getElem?_append_left hlt]
  · obtain ⟨k, hk⟩ : ∃ k, i - A.length = k + 1 := ⟨i - A.length - 1, by omega⟩
    rw [List.getElem?_append_right hge, List.getElem?_append_right hge, hk]
    rfl

/-- The entries in another order or with other sizes. -/
theorem Shape.rearrange {s s' : Ctx} {es es' : List Word} (h : Shape s es)
    (slots : ∀ i, i < 1024 → s'.blocks i = es'[i]?.getD 0)
    (perm : (numbers es').Perm (numbers es)) (iBlocks : s'.node.iBlocks = s.node.iBlocks)
    (index : s'.node.indexBlock = s.node.indexBlock) : Shape s' es' := by
  have hlen : es'.length = es.length := by simpa [numbers] using perm.length_eq
  refine ⟨hlen ▸ h.length_le, slots, ?_, perm.nodup_iff.mpr h.distinct, ?_⟩
  · rw [iBlocks, h.iBlocks, hlen]
  · rw [index, perm.mem_iff]
    exact h.apart

theorem shape_of_words {s : Ctx} {es : List Word} (length_le : es.length ≤ 1024)
    (index : s.disk s.node.indexBlock = ofWords32 (fun i => es[i]?.getD 0))
    (iBlocks : s.node.iBlocks = es.length + 1) (distinct : (numbers es).Nodup)
    (apart : s.node.indexBlock ∉ numbers es) : Shape s es := by
  refine ⟨length_le, ?_, iBlocks, distinct, apart⟩
  intro i _
  rw [Ctx.blocks, index, le32_ofWords32]

/-- Rewriting one entry. -/
theorem Slots.replace {s s' : Ctx} {A B : List Word} {e e' : Word} (h : Slots s (A ++ e :: B))
    (at_ : s'.blocks A.length = e')
    (others : ∀ i, i < 1024 → i ≠ A.length → s'.blocks i = s.blocks i)
    (iBlocks : s'.node.iBlocks = s.node.iBlocks) : Slots s' (A ++ e' :: B) := by
  refine ⟨by simpa using h.length_le, ?_, ?_⟩
  · intro i hi
    by_cases heq : i = A.length
    · subst heq
      simp [at_]
    · rw [others i hi heq, h.slots i hi, getElem?_replace e e' heq]
  · rw [iBlocks, h.iBlocks]
    simp

/-- Rewriting one entry without moving it to another block. -/
theorem Shape.replace {s s' : Ctx} {A B : List Word} {e e' : Word}
    (h : Shape s (A ++ e :: B)) (number : getBlockNumber e' = getBlockNumber e)
    (at_ : s'.blocks A.length = e')
    (others : ∀ i, i < 1024 → i ≠ A.length → s'.blocks i = s.blocks i)
    (iBlocks : s'.node.iBlocks = s.node.iBlocks)
    (index : s'.node.indexBlock = s.node.indexBlock) : Shape s' (A ++ e' :: B) := by
  have hn : numbers (A ++ e' :: B) = numbers (A ++ e :: B) := by simp [number]
  apply (h.toSlots.replace at_ others iBlocks).shape (hn ▸ h.distinct)
  rw [hn, index]
  exact h.apart

/-- A file whose index is packed and whose size is the sum of its entries. -/
structure WellFormed (s : Ctx) : Prop where
  iBlocks_pos : 1 ≤ s.node.iBlocks
  iBlocks_le : s.node.iBlocks - 1 ≤ 1024
  nonzero : ∀ i, i < s.node.iBlocks - 1 → s.blocks i ≠ 0
  zero : ∀ i, s.node.iBlocks - 1 ≤ i → i < 1024 → s.blocks i = 0
  distinct : (numbers s.entries).Nodup
  size : s.node.iSize = total s.entries

/-- The file belongs to the volume: its index block and data blocks are
different blocks in use, on a volume whose free counter is right. -/
structure Live (s : Ctx) : Prop where
  volume : BlocksOk s.sbi
  index : Used s.sbi s.node.indexBlock
  data : ∀ b ∈ numbers s.entries, Used s.sbi b
  apart : s.node.indexBlock ∉ numbers s.entries

@[simp] theorem entries_length (s : Ctx) : s.entries.length = s.node.iBlocks - 1 := by
  simp [Ctx.entries]

theorem WellFormed.shape {s : Ctx} (w : WellFormed s)
    (apart : s.node.indexBlock ∉ numbers s.entries) : Shape s s.entries := by
  have hpos := w.iBlocks_pos
  refine ⟨by simpa using w.iBlocks_le, ?_, by rw [entries_length]; omega, w.distinct, apart⟩
  intro i hi
  rcases Nat.lt_or_ge i (s.node.iBlocks - 1) with hlt | hge
  · simp [Ctx.entries, List.getElem?_range hlt]
  · rw [w.zero i hge hi, List.getElem?_eq_none (by rw [entries_length]; exact hge)]
    rfl

theorem Live.held {s : Ctx} (l : Live s) : Held s s.entries := ⟨l.volume, l.data, l.index⟩

theorem Shape.wellFormed {s : Ctx} {es : List Word} (h : Shape s es)
    (nonzero : ∀ e ∈ es, e ≠ 0) (size : s.node.iSize = total es) : WellFormed s := by
  have hl := h.length_le
  have hb := h.iBlocks
  refine ⟨by omega, by omega, ?_, ?_, by rw [h.entries_eq]; exact h.distinct,
    by rw [h.entries_eq]; exact size⟩
  · intro i hi
    rw [h.slots i (by omega), List.getElem?_eq_getElem (show i < es.length by omega)]
    exact nonzero _ (List.getElem_mem _)
  · intro i hi hlt
    rw [h.slots i hlt, List.getElem?_eq_none (by omega)]
    rfl

theorem nonzero_of_numbers {es : List Word} (h : ∀ b ∈ numbers es, 0 < b) :
    ∀ e ∈ es, e ≠ 0 := by
  intro e he
  exact ne_zero_of_getBlockNumber_pos (h _ (mem_numbers_of_mem he))

theorem Held.nonzero {s : Ctx} {es : List Word} (h : Held s es) : ∀ e ∈ es, e ≠ 0 :=
  nonzero_of_numbers fun b hb => (h.data b hb).pos

theorem Shape.live {s : Ctx} {es : List Word} (h : Shape s es) (held : Held s es) : Live s :=
  ⟨held.ok, held.index, by rw [h.entries_eq]; exact held.data, by rw [h.entries_eq]; exact h.apart⟩

end Layout
