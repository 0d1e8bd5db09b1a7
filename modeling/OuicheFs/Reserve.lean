import OuicheFs.Layout
import OuicheFs.Write

/-!
# Making room in the index

Shifting the tail of the index and allocating into the hole inserts zero-size
entries on fresh blocks into the list of entries. No byte of a data block is
touched and the content stays the same.
-/
namespace Reserve

open CInt ByteBuffer IndexEntry Allocator FileContext Layout OuicheWrite

/-- What a step that only rewrites index words leaves alone. -/
structure IndexOnly (s s' : Ctx) : Prop where
  disk : ∀ b, b ≠ s.node.indexBlock → s'.disk b = s.disk b
  index : s'.node.indexBlock = s.node.indexBlock

theorem IndexOnly.refl (s : Ctx) : IndexOnly s s := ⟨fun _ _ => rfl, rfl⟩

theorem IndexOnly.trans {s t u : Ctx} (h : IndexOnly s t) (h' : IndexOnly t u) :
    IndexOnly s u :=
  ⟨fun b hb => (h'.disk b (h.index ▸ hb)).trans (h.disk b hb), h'.index.trans h.index⟩

theorem setBlocks_indexOnly (s : Ctx) (i : Nat) (e : Word) :
    IndexOnly s (s.setBlocks i e) :=
  ⟨fun _ hb => disk_setBlocks_of_ne s i e hb, rfl⟩

/-! ## Shifting -/

theorem shiftBlocksLoop_blocks (a nb : Nat) (pos : 0 < nb) (n : Nat) (s : Ctx) (i : Nat) :
    (shiftBlocksLoop a nb n s).blocks i =
      if a + nb ≤ i ∧ i < a + nb + n then s.blocks (i - nb)
      else if a ≤ i ∧ i < a + n then 0 else s.blocks i := by
  induction n generalizing s with
  | zero =>
    have h1 : ¬ (a + nb ≤ i ∧ i < a + nb + 0) := by omega
    have h2 : ¬ (a ≤ i ∧ i < a + 0) := by omega
    simp only [shiftBlocksLoop, if_neg h1, if_neg h2]
  | succ n ih =>
    rw [shiftBlocksLoop, ih]
    by_cases hmoved : a + nb ≤ i ∧ i < a + nb + n
    · rw [if_pos hmoved, if_pos (by omega), blocks_setBlocks_of_ne _ _ (by omega),
        blocks_setBlocks_of_ne _ _ (by omega)]
    rw [if_neg hmoved]
    by_cases hlast : i = a + n + nb
    · subst hlast
      rw [if_neg (by omega), if_pos (by omega), blocks_setBlocks_of_ne _ _ (by omega),
        blocks_setBlocks_self]
      congr 1
      omega
    rw [if_neg (show ¬ (a + nb ≤ i ∧ i < a + nb + (n + 1)) by omega)]
    by_cases hz : i = a + n
    · subst hz
      rw [if_neg (by omega), if_pos (by omega), blocks_setBlocks_self]
    · rw [blocks_setBlocks_of_ne _ _ hz, blocks_setBlocks_of_ne _ _ hlast]
      by_cases hin : a ≤ i ∧ i < a + n
      · rw [if_pos hin, if_pos (by omega)]
      · rw [if_neg hin, if_neg (by omega)]

theorem shiftBlocksLoop_frame (a nb n : Nat) (s : Ctx) :
    IndexOnly s (shiftBlocksLoop a nb n s) ∧
      (shiftBlocksLoop a nb n s).sbi = s.sbi ∧ (shiftBlocksLoop a nb n s).node = s.node := by
  induction n generalizing s with
  | zero => exact ⟨IndexOnly.refl s, rfl, rfl⟩
  | succ n ih =>
    obtain ⟨hi, hs, hn⟩ := ih ((s.setBlocks (a + n + nb) (s.blocks (a + n))).setBlocks (a + n) 0)
    refine ⟨?_, hs, hn⟩
    exact ((setBlocks_indexOnly _ _ _).trans (setBlocks_indexOnly _ _ _)).trans hi

theorem shiftBlocksLoop_io (a nb n : Nat) (s : Ctx) : (shiftBlocksLoop a nb n s).io = s.io := by
  induction n generalizing s with
  | zero => rfl
  | succ n ih => exact ih _

/-- The index with a hole of `nb` zero slots behind the entries `A`. -/
structure Hole (s : Ctx) (A B : List Word) (nb : Nat) : Prop where
  before : ∀ i, i < A.length → s.blocks i = A[i]?.getD 0
  zero : ∀ i, A.length ≤ i → i < A.length + nb → s.blocks i = 0
  after : ∀ i, A.length + nb ≤ i → i < 1024 → s.blocks i = B[i - (A.length + nb)]?.getD 0

theorem slots_hole {s : Ctx} {A B : List Word} {nb : Nat} (h : Slots s (A ++ B))
    (room : A.length + B.length + nb ≤ 1024) :
    Hole (if B ≠ [] ∧ nb > 0 then shiftBlocks s A.length nb (A.length + B.length - 1) else s)
      A B nb := by
  have low : ∀ i, i < A.length → s.blocks i = A[i]?.getD 0 := by
    intro i hi
    rw [h.slots i (by omega), List.getElem?_append_left hi]
  have high : ∀ i, A.length ≤ i → i < 1024 → s.blocks i = B[i - A.length]?.getD 0 := by
    intro i hi hlt
    rw [h.slots i hlt, List.getElem?_append_right hi]
  have past : ∀ i, A.length + B.length ≤ i → i < 1024 → s.blocks i = 0 := by
    intro i hi hlt
    rw [high i (by omega) hlt, List.getElem?_eq_none (by omega)]
    rfl
  split
  · rename_i hs
    have hB : 0 < B.length := List.length_pos_iff.mpr hs.1
    have hn : A.length + B.length - 1 + 1 - A.length = B.length := by omega
    have key := shiftBlocksLoop_blocks A.length nb hs.2 B.length s
    constructor
    · intro i hi
      rw [shiftBlocks, hn, key, if_neg (by omega), if_neg (by omega)]
      exact low i hi
    · intro i hlo hhi
      rw [shiftBlocks, hn, key, if_neg (by omega)]
      split
      · rfl
      · exact past i (by omega) (by omega)
    · intro i hlo hhi
      rw [shiftBlocks, hn, key]
      by_cases hin : i < A.length + nb + B.length
      · rw [if_pos ⟨hlo, hin⟩, high _ (by omega) (by omega)]
        congr 2
        omega
      · rw [if_neg (by omega), if_neg (by omega), past i (by omega) hhi,
          List.getElem?_eq_none (by omega)]
        rfl
  · rename_i hs
    refine ⟨low, ?_, ?_⟩
    · intro i hlo hhi
      have hB : B = [] := by
        by_contra hne
        exact hs ⟨hne, by omega⟩
      exact past i (by simp [hB]; omega) (by omega)
    · intro i hlo hhi
      by_cases hnb : nb = 0
      · subst hnb
        exact high i (by omega) hhi
      · have hB : B = [] := by
          by_contra hne
          exact hs ⟨hne, by omega⟩
        rw [past i (by simp [hB]; omega) hhi, hB]
        rfl

theorem shiftBlocksLoop_below {n : Nat} (a nb k : Nat) :
    ∀ s : Ctx, a + k + nb ≤ n → Below n s (shiftBlocksLoop a nb k s) := by
  induction k with
  | zero => exact fun s _ => Below.refl n s
  | succ k ih =>
    intro s hle
    have hto := Below.setBlocks s (s.blocks (a + k)) (show a + k + nb < n by omega)
    have hfrom := Below.setBlocks (s.setBlocks (a + k + nb) (s.blocks (a + k))) 0
      (show a + k < n by omega)
    exact (hto.trans hfrom).trans (ih _ (by omega))

/-! ## Allocating -/

structure Reserved (s : Ctx) (bli n : Nat) (fresh : List Nat) (r : Ctx × Bool) : Prop where
  length : fresh.length = n
  succeeded : r.2 = false
  allocated : Allocated s.sbi r.1.sbi fresh
  inside : ∀ i, i < n → r.1.blocks (bli + i) = freshEntry (fresh[i]?.getD 0)
  outside : ∀ i, i < bli ∨ bli + n ≤ i → r.1.blocks i = s.blocks i
  frame : IndexOnly s r.1
  node : r.1.node = { s.node with iBlocks := s.node.iBlocks + n }

/-- One iteration on an unallocated slot: the state in which the loop goes on. -/
theorem reserveEmptyBlocks_step {s : Ctx} {bli : Nat} (n : Nat) (ok : BlocksOk s.sbi)
    (enough : 0 < s.sbi.nrFreeBlocks) (small : s.node.iBlocks + 1 < 18446744073709551616)
    (empty : s.blocks bli = 0) :
    ∃ b t, reserveEmptyBlocks bli (n + 1) s = reserveEmptyBlocks (bli + 1) n t ∧
      Taken s.sbi t.sbi b ∧ t.blocks bli = freshEntry b ∧
      (∀ i, i ≠ bli → t.blocks i = s.blocks i) ∧ IndexOnly s t ∧
      t.node = { s.node with iBlocks := s.node.iBlocks + 1 } := by
  have taken := getFreeBlock_taken ok enough
  obtain ⟨b, sbi', hget⟩ : ∃ b sbi', getFreeBlock s.sbi = (b, sbi') := ⟨_, _, rfl⟩
  rw [hget] at taken
  have hb : b ≠ 0 := Nat.pos_iff_ne_zero.mp taken.pos
  let s1 : Ctx := { s.touch bli with sbi := sbi' }
  let s2 := s1.setBlocks bli (setBlockNumber (s1.blocks bli) b)
  let s3 := s2.setBlocks bli (setBlockSize (s2.blocks bli) 0)
  have hwrap : u64 ((s.node.iBlocks : Int) + 1) = s.node.iBlocks + 1 := by
    have := u64_natCast (n := s.node.iBlocks + 1) small
    push_cast at this
    exact this
  refine ⟨b, { s3 with node := { s3.node with iBlocks := s.node.iBlocks + 1 } }, ?_, taken,
    ?_, ?_, ⟨?_, rfl⟩, rfl⟩
  · have hz : (s.touch bli).blocks bli = 0 := empty
    have hg : getFreeBlock (s.touch bli).sbi = (b, sbi') := hget
    rw [reserveEmptyBlocks]
    simp only [hz, hg, ne_eq, not_true_eq_false, if_false, hb]
    congr 3
  · have h1 : s1.blocks bli = 0 := empty
    have h2 : s2.blocks bli = setBlockNumber 0 b := by
      simp only [s2, blocks_setBlocks_self, h1]
    change s3.blocks bli = _
    simp only [s3, blocks_setBlocks_self, h2, freshEntry]
  · intro i hi
    change s3.blocks i = _
    rw [blocks_setBlocks_of_ne _ _ hi, blocks_setBlocks_of_ne _ _ hi]
    rfl
  · intro c hc
    have h3 : s3.disk c = s2.disk c := disk_setBlocks_of_ne s2 _ _ hc
    have h2 : s2.disk c = s1.disk c := disk_setBlocks_of_ne s1 _ _ hc
    exact h3.trans h2

theorem reserveEmptyBlocks_spec (n bli : Nat) (s : Ctx) (ok : BlocksOk s.sbi)
    (enough : n ≤ s.sbi.nrFreeBlocks) (small : s.node.iBlocks + n < 18446744073709551616)
    (empty : ∀ i, bli ≤ i → i < bli + n → s.blocks i = 0) :
    ∃ fresh, Reserved s bli n fresh (reserveEmptyBlocks bli n s) := by
  induction n generalizing bli s with
  | zero =>
    exact ⟨[], rfl, rfl, Allocated.nil ok, by simp, fun _ _ => rfl, IndexOnly.refl s, rfl⟩
  | succ n ih =>
    obtain ⟨b, t, hstep, taken, hat, hother, hframe, hnode⟩ :=
      reserveEmptyBlocks_step n ok (by omega) (by omega) (empty bli (by omega) (by omega))
    have hcount := taken.count
    obtain ⟨fresh, hr⟩ := ih (bli + 1) t (taken.blocksOk ok) (by omega)
      (by rw [hnode]; change s.node.iBlocks + 1 + n < _; omega)
      (fun i lo hi => by rw [hother i (by omega)]; exact empty i (by omega) (by omega))
    refine ⟨b :: fresh, ?_⟩
    rw [hstep]
    refine ⟨by simp [hr.length], hr.succeeded, ?_, ?_, ?_, hframe.trans hr.frame, ?_⟩
    · exact (taken.allocated ok).append hr.allocated
    · intro i hi
      cases i with
      | zero =>
        have hfirst := (hr.outside bli (by omega)).trans hat
        simpa using hfirst
      | succ i =>
        have hnext := hr.inside i (by omega)
        rw [show bli + (i + 1) = bli + 1 + i by omega, hnext]
        rfl
    · intro i hi
      rw [hr.outside i (by omega), hother i (by omega)]
    · rw [hr.node, hnode]
      simp only [Nat.add_assoc, Nat.add_comm 1 n]

theorem reserveEmptyBlocks_io (n : Nat) : ∀ (bli : Nat) (s : Ctx),
    (reserveEmptyBlocks bli n s).1.io = s.io := by
  induction n with
  | zero => exact fun _ _ => rfl
  | succ n ih =>
    intro bli s
    rw [reserveEmptyBlocks]
    simp only
    split
    · exact ih (bli + 1) _
    split
    · rfl
    · exact ih (bli + 1) _

theorem reserveEmptyBlocks_iBlocks (n : Nat) : ∀ (bli : Nat) (s : Ctx),
    s.node.iBlocks + n < 18446744073709551616 →
    s.node.iBlocks ≤ (reserveEmptyBlocks bli n s).1.node.iBlocks ∧
      (reserveEmptyBlocks bli n s).1.node.iBlocks ≤ s.node.iBlocks + n := by
  induction n with
  | zero => exact fun _ _ _ => ⟨Nat.le_refl _, Nat.le_refl _⟩
  | succ n ih =>
    intro bli s hsmall
    have hnext : u64 ((s.node.iBlocks : Int) + 1) = s.node.iBlocks + 1 := by
      unfold u64
      omega
    have hrest : ∀ t : Ctx, s.node.iBlocks ≤ t.node.iBlocks →
        t.node.iBlocks ≤ s.node.iBlocks + 1 →
        s.node.iBlocks ≤ (reserveEmptyBlocks (bli + 1) n t).1.node.iBlocks ∧
          (reserveEmptyBlocks (bli + 1) n t).1.node.iBlocks ≤ s.node.iBlocks + (n + 1) := by
      intro t hlo hhi
      obtain ⟨hlo', hhi'⟩ := ih (bli + 1) t (by omega)
      exact ⟨hlo.trans hlo', hhi'.trans (by omega)⟩
    rw [reserveEmptyBlocks]
    simp only
    split
    · exact hrest _ (Nat.le_refl _) (Nat.le_succ _)
    split
    · exact ⟨Nat.le_refl _, Nat.le_add_right _ _⟩
    · exact hrest _ ((Nat.le_succ _).trans (Nat.le_of_eq hnext.symm)) (Nat.le_of_eq hnext)

theorem reserveEmptyBlocks_below {m : Nat} (n : Nat) : ∀ (bli : Nat) (s : Ctx), bli + n ≤ m →
    Below m s (reserveEmptyBlocks bli n s).1 := by
  induction n with
  | zero => exact fun _ s _ => Below.refl m s
  | succ n ih =>
    intro bli s hle
    have htouch : ∀ t : Ctx, Below m t (t.touch bli) := fun t => Below.touch t (by omega)
    have hrest : ∀ t : Ctx, Below m s t → Below m s (reserveEmptyBlocks (bli + 1) n t).1 :=
      fun t ht => ht.trans (ih (bli + 1) t (by omega))
    rw [reserveEmptyBlocks]
    simp only
    split
    · exact hrest _ (htouch s)
    split
    · exact htouch s
    · exact hrest _ (((htouch s).trans (htouch (s.touch bli))).trans
        (htouch ((s.touch bli).touch bli)))

theorem reserveEmptyBlocks_next {s : Ctx} {bli b : Nat} {sbi : SbInfo} (n : Nat)
    (get : getFreeBlock s.sbi = (b, sbi)) (ne : b ≠ 0) (empty : s.blocks bli = 0) :
    reserveEmptyBlocks bli (n + 1) s = reserveEmptyBlocks (bli + 1) n
      (let t := { s.touch bli with sbi := sbi }
       let t := t.setBlocks bli (setBlockNumber (t.blocks bli) b)
       let t := t.setBlocks bli (setBlockSize (t.blocks bli) 0)
       { t with node := { t.node with iBlocks := u64 ((t.node.iBlocks : Int) + 1) } }) := by
  have hz : (s.touch bli).blocks bli = 0 := empty
  have hg : getFreeBlock (s.touch bli).sbi = (b, sbi) := get
  simp only [reserveEmptyBlocks, hz, hg, ne_eq, not_true_eq_false, if_false, ne]

/-- The entries an allocation adds. -/
def freshEntries (fresh : List Nat) : List Word := fresh.map freshEntry

@[simp] theorem freshEntries_length (fresh : List Nat) :
    (freshEntries fresh).length = fresh.length := by
  simp [freshEntries]

theorem freshEntries_size (fresh : List Nat) :
    ∀ e ∈ freshEntries fresh, getBlockSize e = 0 := by
  intro e he
  obtain ⟨b, _, rfl⟩ := List.mem_map.mp he
  exact getBlockSize_freshEntry b

theorem numbers_freshEntries {fresh : List Nat} (h : ∀ b ∈ fresh, b < 524288) :
    numbers (freshEntries fresh) = fresh := by
  unfold numbers freshEntries
  rw [List.map_map]
  conv_rhs => rw [← List.map_id fresh]
  apply List.map_congr_left
  intro b hb
  exact getBlockNumber_freshEntry_of_lt (h b hb)

theorem addressable_fresh_lt {sbi sbi' : SbInfo} {fresh : List Nat}
    (h : Addressable sbi fresh.length) (a : Allocated sbi sbi' fresh) :
    ∀ b ∈ fresh, b < 524288 := by
  intro b hb
  obtain ⟨_, hlt, hfree⟩ := a.were_free b hb
  exact h b hlt hfree (a.lowest hb)

theorem addressable_allocated {sbi sbi' : SbInfo} {fresh : List Nat} {n : Nat}
    (h : Addressable sbi (fresh.length + n)) (a : Allocated sbi sbi' fresh) :
    Addressable sbi' n := by
  intro b hlt hfree hn
  rw [a.bitmap b] at hfree
  have hle := a.popcount_le b
  exact h b (a.layout.nrBlocks ▸ hlt) (Bool.and_eq_true _ _ ▸ hfree).1 (by omega)

/-- Fresh entries inserted between `A` and `B`: the resulting file. -/
structure Inserted (s s' : Ctx) (A B : List Word) (nb : Nat) (fresh : List Nat) : Prop where
  length : fresh.length = nb
  shape : Shape s' (A ++ freshEntries fresh ++ B)
  held : Held s' (A ++ freshEntries fresh ++ B)
  allocated : Allocated s.sbi s'.sbi fresh
  numbers : numbers (freshEntries fresh) = fresh
  frame : IndexOnly s s'
  node : s'.node = { s.node with iBlocks := s.node.iBlocks + nb }

/-- Filling a hole with fresh entries, whatever numbers they record. -/
theorem reserve_slots {s t : Ctx} {A B : List Word} {nb : Nat} (h : Slots s (A ++ B))
    (ok : BlocksOk s.sbi) (hole : Hole t A B nb) (sbi : t.sbi = s.sbi) (node : t.node = s.node)
    (room : A.length + B.length + nb ≤ 1024) (enough : nb ≤ s.sbi.nrFreeBlocks) :
    ∃ fresh, Reserved t A.length nb fresh (reserveEmptyBlocks A.length nb t) ∧
      Slots (reserveEmptyBlocks A.length nb t).1 (A ++ freshEntries fresh ++ B) := by
  have hbl := h.iBlocks
  have hlen := h.length_le
  simp only [List.length_append] at hbl hlen
  obtain ⟨fresh, r⟩ := reserveEmptyBlocks_spec nb A.length t (sbi ▸ ok)
    (by rw [sbi]; exact enough) (by rw [node]; omega) hole.zero
  have hlf := r.length
  refine ⟨fresh, r, ?_, ?_, ?_⟩
  · simp only [List.length_append, freshEntries_length]
    omega
  · intro i hi
    rcases Nat.lt_or_ge i A.length with hA | hA
    · rw [r.outside i (by omega), hole.before i hA, List.append_assoc,
        List.getElem?_append_left hA]
    rw [List.append_assoc, List.getElem?_append_right hA]
    rcases Nat.lt_or_ge i (A.length + nb) with hF | hF
    · have hin := r.inside (i - A.length) (by omega)
      rw [Nat.add_sub_cancel' hA] at hin
      rw [hin, List.getElem?_append_left (by simp; omega)]
      simp [freshEntries, List.getElem?_eq_getElem (show i - A.length < fresh.length by omega)]
    · rw [r.outside i (by omega), hole.after i hF hi,
        List.getElem?_append_right (by simp; omega)]
      simp only [freshEntries_length, hlf]
      congr 2
      omega
  · rw [r.node, node]
    simp only [List.length_append, freshEntries_length]
    omega

/-- Entries that name the old blocks and freshly allocated ones are in order
again: a fresh block was free, the others were not. -/
theorem shape_of_allocated {s t : Ctx} {es es' : List Word} {fresh : List Nat} (h : Shape s es)
    (held : Held s es) (all : Allocated s.sbi t.sbi fresh) (slots : Slots t es')
    (index : t.node.indexBlock = s.node.indexBlock)
    (perm : (Layout.numbers es').Perm (fresh ++ Layout.numbers es)) :
    Shape t es' ∧ Held t es' := by
  have hsplit : ∀ b, b ∈ Layout.numbers es' → b ∈ fresh ∨ b ∈ Layout.numbers es := fun b hb =>
    List.mem_append.mp (perm.mem_iff.mp hb)
  refine ⟨slots.shape ?_ ?_, all.ok, ?_, ?_⟩
  · rw [perm.nodup_iff]
    refine List.nodup_append.mpr ⟨all.nodup, h.distinct, ?_⟩
    intro x hx y hy heq
    exact (all.used (held.data y hy)).2 (heq ▸ hx)
  · intro hb
    rw [index] at hb
    rcases hsplit _ hb with hf | ho
    · exact (all.used held.index).2 hf
    · exact h.apart ho
  · intro b hb
    rcases hsplit b hb with hf | ho
    · exact all.fresh_used hf
    · exact (all.used (held.data b ho)).1
  · rw [index]
    exact (all.used held.index).1

theorem reserve_into_hole {s t : Ctx} {A B : List Word} {nb : Nat} (h : Shape s (A ++ B))
    (held : Held s (A ++ B)) (addr : Addressable s.sbi nb) (hole : Hole t A B nb)
    (frame : IndexOnly s t) (sbi : t.sbi = s.sbi) (node : t.node = s.node)
    (room : A.length + B.length + nb ≤ 1024) (enough : nb ≤ s.sbi.nrFreeBlocks) :
    ∃ fresh, Inserted s (reserveEmptyBlocks A.length nb t).1 A B nb fresh := by
  obtain ⟨fresh, r, hslots⟩ := reserve_slots h.toSlots held.ok hole sbi node room enough
  have hall : Allocated s.sbi (reserveEmptyBlocks A.length nb t).1.sbi fresh := sbi ▸ r.allocated
  have hnum := numbers_freshEntries (addressable_fresh_lt (by rw [r.length]; exact addr) hall)
  have hnode : (reserveEmptyBlocks A.length nb t).1.node =
      { s.node with iBlocks := s.node.iBlocks + nb } := by rw [r.node, node]
  have hperm : (Layout.numbers (A ++ freshEntries fresh ++ B)).Perm
      (fresh ++ Layout.numbers (A ++ B)) := by
    simp only [numbers_append, hnum, List.append_assoc]
    rw [← List.append_assoc, ← List.append_assoc]
    exact List.Perm.append_right _ List.perm_append_comm
  obtain ⟨hshape, hheld⟩ := shape_of_allocated h held hall hslots (by rw [hnode]) hperm
  exact ⟨fresh, r.length, hshape, hheld, hall, hnum, frame.trans r.frame, hnode⟩

/-- Shift and allocate, as `ouichefs_light_write` does it. -/
theorem insert_fresh {s : Ctx} {A B : List Word} {nb : Nat} (h : Shape s (A ++ B))
    (held : Held s (A ++ B)) (addr : Addressable s.sbi nb)
    (room : A.length + B.length + nb ≤ 1024) (enough : nb ≤ s.sbi.nrFreeBlocks) :
    ∃ fresh, Inserted s (reserveEmptyBlocks A.length nb
      (if B ≠ [] ∧ nb > 0 then shiftBlocks s A.length nb (A.length + B.length - 1) else s)).1
      A B nb fresh := by
  have hole := slots_hole h.toSlots room
  have hframe := shiftBlocksLoop_frame A.length nb
    (A.length + B.length - 1 + 1 - A.length) s
  split at hole
  · rename_i hs
    simp only [if_pos hs]
    exact reserve_into_hole h held addr hole hframe.1 hframe.2.1 hframe.2.2 room enough
  · rename_i hs
    simp only [if_neg hs]
    exact reserve_into_hole h held addr hole (IndexOnly.refl s) rfl rfl room enough

end Reserve
