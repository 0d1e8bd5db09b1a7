import OuicheFs.Insert

/-!
# Filling the gap before a write behind the end

`fill_to_reach_pos` extends the last block, takes the blocks that are still
missing and records sizes up to the position. The bytes of the gap are what
the blocks happened to hold.
-/
namespace GapFill

open CInt ByteBuffer IndexEntry Allocator FileContext Layout OuicheWrite Reserve Pour Insert

/-- The room left in the last block of a file. -/
def lastRoom (es : List Word) : Nat := (es.getLast?.map (fun e => 4096 - getBlockSize e)).getD 0

/-- The number of blocks a gap needs. -/
def gapBlocks (es : List Word) (gap : Nat) : Nat := idivCeil (gap - lastRoom es) blockSize

@[simp] theorem lastRoom_nil : lastRoom [] = 0 := rfl

@[simp] theorem lastRoom_concat (A : List Word) (e : Word) :
    lastRoom (A ++ [e]) = 4096 - getBlockSize e := by
  simp [lastRoom]

theorem lastRoom_le (es : List Word) : lastRoom es ≤ 4096 := by
  rcases List.eq_nil_or_concat es with rfl | ⟨A, e, rfl⟩
  · simp
  · rw [List.concat_eq_append, lastRoom_concat]
    omega

/-- What the last block of a file holds behind its recorded bytes. -/
def lastSlack (disk : Store) (es : List Word) : List Byte :=
  (es.getLast?.map (slackBytes disk)).getD []

/-- The bytes of a gap that begins behind the entries `es` and goes on in the
blocks `fresh`. -/
def gapBytes (disk : Store) (es : List Word) (fresh : List Nat) (gap : Nat) : List Byte :=
  (lastSlack disk es ++ fresh.flatMap (fun b => slice (disk b) 0 4096)).take gap

@[simp] theorem lastSlack_length (disk : Store) (es : List Word) :
    (lastSlack disk es).length = lastRoom es := by
  rcases List.eq_nil_or_concat es with rfl | ⟨A, e, rfl⟩
  · rfl
  · simp [lastSlack, lastRoom]

theorem slackBytes_freshEntries (disk : Store) (fresh : List Nat) :
    (freshEntries fresh).flatMap (slackBytes disk) =
      (numbers (freshEntries fresh)).flatMap (fun b => slice (disk b) 0 4096) := by
  rw [numbers, List.flatMap_map]
  apply List.flatMap_congr
  intro e he
  rw [slackBytes, freshEntries_size fresh e he]

/-- The index after the gap has been filled, whatever numbers the fresh entries
record: the run `L` at its end has taken the bytes of the gap. -/
structure Grown (s u : Ctx) (es : List Word) (pos : Nat) (fresh : List Nat) (A L : List Word) :
    Prop where
  length : fresh.length = gapBlocks es (pos - total es)
  run : A ++ L = es ++ freshEntries fresh
  front : ∀ e ∈ A, e ∈ es
  full : Dense es → ∀ e ∈ A, getBlockSize e = 4096
  zero : ∀ e ∈ L.tail, getBlockSize e = 0
  room : ∀ disk, L.flatMap (slackBytes disk) =
    lastSlack disk es ++ (freshEntries fresh).flatMap (slackBytes disk)
  tight : Tight L (pos - total es)
  slots : Slots u (A ++ pour L (pos - total es))
  past : ∀ i, es.length + fresh.length ≤ i → u.blocks i = s.blocks i
  below : Below 1024 s u
  allocated : Allocated s.sbi u.sbi fresh
  frame : ∀ b, b ≠ s.node.indexBlock → u.disk b = s.disk b
  node : ∃ n, u.node = { s.node with iBlocks := n, iSize := pos }
  io : u.io = s.io

/-- What is known after the gap has been filled. -/
structure Filled (s u : Ctx) (es : List Word) (pos : Nat) (fresh : List Nat)
    (es' : List Word) : Prop where
  length : fresh.length = gapBlocks es (pos - total es)
  shape : Shape u es'
  held : Held u es'
  allocated : Allocated s.sbi u.sbi fresh
  blocks : numbers es' = numbers es ++ fresh
  frame : ∀ b, b ≠ s.node.indexBlock → u.disk b = s.disk b
  node : ∃ n, u.node = { s.node with iBlocks := n, iSize := pos }
  size : total es' = pos
  bytes : bytesOf u.disk es' = bytesOf s.disk es ++ gapBytes s.disk es fresh (pos - total es)
  positive : (∀ e ∈ es, 0 < getBlockSize e) → ∀ e ∈ es', 0 < getBlockSize e
  dense : Dense es → Dense es'

section

variable {s : Ctx} {es : List Word} {pos : Nat}

/-- With numbers that an entry can record the file is in order again. -/
theorem Grown.filled {u : Ctx} {A L : List Word} {fresh : List Nat} (g : Grown s u es pos fresh A L)
    (shape : Shape s es) (held : Held s es) (gap : total es < pos)
    (addr : Addressable s.sbi (gapBlocks es (pos - total es))) :
    Filled s u es pos fresh (A ++ pour L (pos - total es)) := by
  have hfresh := numbers_freshEntries (addressable_fresh_lt (by rw [g.length]; exact addr)
    g.allocated)
  have hnum : numbers (A ++ pour L (pos - total es)) = numbers es ++ fresh := by
    rw [numbers_append, numbers_pour, ← numbers_append, g.run, numbers_append, hfresh]
  obtain ⟨n, hnode⟩ := g.node
  obtain ⟨hshape, hheld⟩ := shape_of_allocated shape held g.allocated g.slots (by rw [hnode])
    (by rw [hnum]; exact List.perm_append_comm)
  have hzero := freshEntries_size fresh
  have hold : bytesOf u.disk (A ++ L) = bytesOf s.disk es := by
    rw [g.run, bytesOf_append, bytesOf_of_sizes_zero _ hzero, List.append_nil]
    apply bytesOf_congr
    intro e he
    exact g.frame _ (shape.ne_index he)
  have hslack : lastSlack u.disk es = lastSlack s.disk es := by
    rcases List.eq_nil_or_concat es with rfl | ⟨B, e, rfl⟩
    · rfl
    · simp [lastSlack, slackBytes, g.frame _ (shape.ne_index (e := e) (by simp))]
  have hblocks : fresh.flatMap (fun b => slice (u.disk b) 0 4096) =
      fresh.flatMap (fun b => slice (s.disk b) 0 4096) := by
    apply List.flatMap_congr
    intro b hb
    rw [g.frame b]
    rintro rfl
    exact (g.allocated.used held.index).2 hb
  refine ⟨g.length, hshape, hheld, g.allocated, hnum, g.frame, ⟨n, hnode⟩, ?_, ?_, ?_,
    fun hdense => dense_pour (g.full hdense) g.tight⟩
  · have hsum := congrArg total g.run
    simp only [total_append, total_of_sizes_zero hzero] at hsum
    rw [total_append, total_pour g.tight.2]
    omega
  · rw [bytesOf_append, bytesOf_pour_extends u.disk _ g.zero, ← List.append_assoc,
      ← bytesOf_append, hold, g.room, slackBytes_freshEntries, hfresh, gapBytes, hslack, hblocks]
  · intro hpos e he
    rcases List.mem_append.mp he with hA | hL
    · exact hpos e (g.front e hA)
    · exact pour_pos g.tight e hL

/-- The run that the filling loop extends. -/
theorem gap_run {fresh : List Nat} {gap : Nat} (pos : 0 < gap)
    (length : fresh.length = gapBlocks es gap) :
    ∃ A L, A ++ L = es ++ freshEntries fresh ∧ (∀ e ∈ A, e ∈ es) ∧
      (Dense es → ∀ e ∈ A, getBlockSize e = 4096) ∧ (∀ e ∈ L.tail, getBlockSize e = 0) ∧
      (∀ disk, L.flatMap (slackBytes disk) =
        lastSlack disk es ++ (freshEntries fresh).flatMap (slackBytes disk)) ∧ Tight L gap ∧
      capacity L = lastRoom es + 4096 * fresh.length ∧
      A.length = (if lastRoom es > 0 then es.length - 1 else es.length) := by
  have hge := idivCeil_mul_ge (gap - lastRoom es) (b := 4096) (by decide)
  have hlt := idivCeil_pred_mul_lt (a := gap - lastRoom es) (b := 4096) (by decide)
  rw [gapBlocks, blockSize] at length
  rw [← length] at hge hlt
  have hzero := freshEntries_size fresh
  by_cases hroom : lastRoom es > 0
  · obtain ⟨A, e, rfl⟩ : ∃ A e, es = A ++ [e] := by
      rcases List.eq_nil_or_concat es with rfl | ⟨A, e, h⟩
      · simp at hroom
      · exact ⟨A, e, by simpa using h⟩
    rw [lastRoom_concat] at hroom hge hlt ⊢
    refine ⟨A, e :: freshEntries fresh, by simp, by simp +contextual, ?_, hzero,
      by simp [lastSlack], ?_, ?_, ?_⟩
    · intro hdense f hf
      apply hdense.full
      rw [List.dropLast_concat]
      exact hf
    · apply tight_cons hzero pos
      · intro hne
        rw [freshEntries_length]
        have : 0 < fresh.length := by
          rw [← freshEntries_length]
          exact List.length_pos_iff.mpr hne
        have := hlt this
        omega
      · rw [freshEntries_length]
        omega
    · rw [capacity_cons, capacity_of_sizes_zero hzero, freshEntries_length]
    · simp [hroom]
  · have hz : lastRoom es = 0 := by omega
    rw [hz] at hge hlt ⊢
    have hf : 0 < fresh.length := by omega
    refine ⟨es, freshEntries fresh, rfl, fun _ h => h, ?_,
      fun f hf => hzero f (List.mem_of_mem_tail hf), ?_, ?_, ?_, by simp⟩
    · intro hdense
      apply hdense.all_full
      intro e he
      have hle := getBlockSize_le e
      simp only [lastRoom, he, Option.map_some, Option.getD_some] at hz
      omega
    · intro disk
      have hnone : lastSlack disk es = [] := by
        apply List.eq_nil_of_length_eq_zero
        rw [lastSlack_length, hz]
      rw [hnone, List.nil_append]
    · apply tight_zero hzero
      · rw [freshEntries_length]
        have := hlt hf
        omega
      · rw [freshEntries_length]
        omega
    · rw [capacity_of_sizes_zero hzero, freshEntries_length]
      omega

/-- Where the cursor is after the gap. -/
inductive Cursor (es' : List Word) : Nat → Nat → Prop
  | behind : (∀ e, es'.getLast? = some e → getBlockSize e = 4096) → Cursor es' es'.length 0
  | inside (A : List Word) (e : Word) : es' = A ++ [e] → 0 < getBlockSize e →
      getBlockSize e < 4096 → Cursor es' A.length (getBlockSize e)

/-- The cursor of a filled gap, and how it lies in the last block. -/
structure Landed (es es' : List Word) (pos k p : Nat) : Prop where
  cursor : Cursor es' k p
  offset : p = (4096 - lastRoom es + (pos - total es)) % 4096

/-- The last entry decides where the cursor is. -/
theorem landed {A L : List Word} {fresh : List Nat} (tight : Tight L (pos - total es))
    (capacity : capacity L = lastRoom es + 4096 * fresh.length) :
    ∃ P e, A ++ pour L (pos - total es) = (A ++ P) ++ [e] ∧
      A.length + L.length - 1 = (A ++ P).length ∧
      (getBlockSize e = 4096 →
        Landed es (A ++ pour L (pos - total es)) pos ((A ++ P).length + 1) 0) ∧
      (getBlockSize e ≠ 4096 →
        Landed es (A ++ pour L (pos - total es)) pos (A ++ P).length (getBlockSize e)) := by
  obtain ⟨P, e, hpour, hsize⟩ := pour_last tight
  have hes' : A ++ pour L (pos - total es) = (A ++ P) ++ [e] := by
    rw [hpour]
    simp
  have hle := getBlockSize_le e
  have hlr := lastRoom_le es
  refine ⟨P, e, hes', ?_, ?_, ?_⟩
  · have := congrArg List.length hpour
    simp only [pour_length, List.length_append, List.length_singleton] at this ⊢
    omega
  · intro hfull
    have hend : (A ++ P).length + 1 = (A ++ pour L (pos - total es)).length := by
      rw [hes']
      simp only [List.length_append, List.length_singleton]
    refine ⟨?_, by omega⟩
    rw [hend]
    apply Cursor.behind
    intro f hf
    rw [hes', List.getLast?_concat] at hf
    rw [← Option.some.inj hf]
    exact hfull
  · intro hopen
    refine ⟨Cursor.inside (A ++ P) e hes' ?_ (by omega), by omega⟩
    exact pour_pos tight e (by rw [hpour]; simp)

/-- The end of the gap fill: the size follows, and the last block is looked at. -/
def fillEnd (r : Ctx × Nat × Nat) : Ctx × Option (Nat × Nat) :=
  let u := ({ r.1 with node := { r.1.node with iSize := r.1.node.iSize + r.2.2 } } : Ctx).touch
    ((r.2.1 - 1 : Nat) : Int)
  if getBlockSize (u.blocks (r.2.1 - 1)) = blockSize then (u, some (r.2.1 - 1 + 1, 0))
  else (u, some (r.2.1 - 1, getBlockSize (u.blocks (r.2.1 - 1))))

/-- The stages of the gap fill, with the numbers they work with. -/
theorem fillToReachPos_eq (slots : Slots s es) (nonzero : ∀ e ∈ es, e ≠ 0)
    (size : s.node.iSize = total es) {q : Ctx} (hq : q = s.touch ((es.length - 1 : Nat) : Int)) :
    fillToReachPos s pos = if spaceAvailable q (gapBlocks es (pos - total es)) < 0 then (q, none)
      else
        let start := if lastRoom es > 0 then es.length - 1 else es.length
        fillEnd (fillLoop (pos - total es) (2147483648 - start)
          (reserveEmptyBlocks es.length (gapBlocks es (pos - total es)) q).1 start 0) := by
  have hlen := slots.length_le
  have hi32 : i32 s.node.iBlocks = es.length + 1 := by
    rw [slots.iBlocks, i32_eq_self (by omega) (by omega)]
    omega
  have hlast : (max (i32 s.node.iBlocks - 2) 0).toNat = es.length - 1 := by
    rw [hi32]
    omega
  have hnode : q.node = s.node := by
    rw [hq]
    rfl
  have hroom : (if q.blocks (es.length - 1) = 0 then 0
      else blockSize - getBlockSize (q.blocks (es.length - 1))) = lastRoom es := by
    have slots0 : Slots q es := by
      rw [hq]
      exact ⟨slots.length_le, slots.slots, slots.iBlocks⟩
    rcases List.eq_nil_or_concat es with rfl | ⟨A, e, h⟩
    · rw [slots0.slots _ (by decide)]
      rfl
    · rw [List.concat_eq_append] at h
      subst h
      have hl : (A ++ [e]).length - 1 = A.length := by simp
      rw [hl, slots0.blocks_at, lastRoom_concat, if_neg (nonzero e (by simp)), blockSize]
  have hstart : (max (i32 q.node.iBlocks - 1) 0).toNat = es.length := by
    rw [hnode, hi32]
    omega
  have hgap : pos - q.node.iSize = pos - total es := by rw [hnode, size]
  unfold fillToReachPos
  simp only [hlast, ← hq, hroom, hstart, hgap]
  rw [← gapBlocks]
  rfl

/-- The gap is filled in the run `L`, behind the blocks that were taken for it. -/
theorem fillLoop_grows (slots : Slots s es) (ok : BlocksOk s.sbi) (size : s.node.iSize = total es)
    (gap : total es < pos) {q : Ctx} (hq : q = s.touch ((es.length - 1 : Nat) : Int)) {nb : Nat}
    (hnb : nb = gapBlocks es (pos - total es)) (room : nb + es.length ≤ 1024)
    (enough : nb ≤ s.sbi.nrFreeBlocks) :
    ∃ u fresh A L, Grown s u es pos fresh A L ∧ capacity L = lastRoom es + 4096 * fresh.length ∧
      ∃ v, u = ({ v with node := { v.node with iSize := v.node.iSize + (pos - total es) } } :
          Ctx).touch ((A.length + L.length - 1 : Nat) : Int) ∧
        (let start := if lastRoom es > 0 then es.length - 1 else es.length
         fillLoop (pos - total es) (2147483648 - start) (reserveEmptyBlocks es.length nb q).1 start
           0) = (v, A.length + L.length, pos - total es) := by
  have hlen := slots.length_le
  have hdisk : q.disk = s.disk := by rw [hq]; rfl
  have hsbi : q.sbi = s.sbi := by rw [hq]; rfl
  have hnode : q.node = s.node := by rw [hq]; rfl
  have hqio : q.io = s.io := by rw [hq]; rfl
  have hqbelow : Below 1024 s q := by
    rw [hq]
    refine Below.touch s ?_
    omega
  have slots0 : Slots q (es ++ []) := by
    rw [hq, List.append_nil]
    exact ⟨slots.length_le, slots.slots, slots.iBlocks⟩
  have hole := @slots_hole q es [] nb slots0 (by simp; omega)
  simp only [ne_eq, not_true_eq_false, false_and, if_false] at hole
  obtain ⟨fresh, hres, htslots⟩ := reserve_slots slots0
    (hsbi.symm ▸ ok) hole rfl rfl (by simp; omega) (hsbi.symm ▸ enough)
  rw [List.append_nil] at htslots
  have htio := reserveEmptyBlocks_io nb es.length q
  have htbelow : Below 1024 q (reserveEmptyBlocks es.length nb q).1 :=
    reserveEmptyBlocks_below nb es.length q (by omega)
  obtain ⟨t, ht⟩ : ∃ t, t = (reserveEmptyBlocks es.length nb q).1 := ⟨_, rfl⟩
  have htall : Allocated s.sbi t.sbi fresh := by
    rw [ht, ← hsbi]
    exact hres.allocated
  have htframe : IndexOnly q t := by
    rw [ht]
    exact hres.frame
  have htnode : t.node = { s.node with iBlocks := s.node.iBlocks + nb } := by
    rw [ht, hres.node, hnode]
  have htpast : ∀ i, es.length + nb ≤ i → t.blocks i = q.blocks i := by
    intro i hi
    rw [ht]
    exact hres.outside i (Or.inr hi)
  rw [← ht] at htslots htio htbelow ⊢
  have hfl := hres.length
  obtain ⟨A, L, hrun, hfront, hdense, hzero, hslack, htight, hcap, hA⟩ := gap_run
    (show 0 < pos - total es by omega) (hfl.trans hnb)
  have hlenAL : A.length + L.length = es.length + fresh.length := by
    have := congrArg List.length hrun
    simpa using this
  obtain ⟨v, hv, hvslots, hvdata, hvio, hvpast⟩ := fillLoop_slots L A t
    (2147483648 - (if lastRoom es > 0 then es.length - 1 else es.length)) 0 (pos - total es)
    (by rw [hrun]; exact htslots) (by split <;> omega) (Nat.zero_le _) htight
  rw [Nat.sub_zero] at hvslots
  rw [← hA] at hv ⊢
  have hvbelow : Below 1024 t v := by
    have hloop := fillLoop_below (n := 1024) (pos - total es) (2147483648 - A.length) t A.length 0
    rw [hv] at hloop
    exact hloop (by simp only; omega)
  obtain ⟨u, hu⟩ : ∃ u : Ctx, u = ({ v with node := { v.node with
      iSize := v.node.iSize + (pos - total es) } } : Ctx).touch
        ((A.length + L.length - 1 : Nat) : Int) := ⟨_, rfl⟩
  refine ⟨u, fresh, A, L, ?_, hcap, v, hu, hv⟩
  refine ⟨hfl.trans hnb, hrun, hfront, hdense, hzero, hslack, htight, ?_, ?_, ?_, ?_, ?_, ?_, ?_⟩
  · rw [hu]
    exact ⟨hvslots.length_le, hvslots.slots, hvslots.iBlocks⟩
  · intro i hi
    rw [hu]
    change v.blocks i = s.blocks i
    rw [hvpast i (by omega), htpast i (by omega), hq]
    rfl
  · rw [hu]
    exact ((hqbelow.trans htbelow).trans hvbelow).trans (Below.touch _ (by omega))
  · rw [hu]
    exact (show v.sbi = t.sbi from hvdata.sbi) ▸ htall
  · intro b hb
    have hbq : b ≠ q.node.indexBlock := by rw [hnode]; exact hb
    have hbt : b ≠ t.node.indexBlock := by rw [htframe.index]; exact hbq
    rw [hu]
    change v.disk b = s.disk b
    rw [hvdata.disk b hbt (by simp), htframe.disk b hbq, hdisk]
  · have hsize : v.node.iSize = total es := by rw [hvdata.node, htnode, ← size]
    have hpos : v.node.iSize + (pos - total es) = pos := by omega
    refine ⟨s.node.iBlocks + nb, ?_⟩
    rw [hu, hpos]
    change ({ v.node with iSize := pos } : Inode) = _
    rw [hvdata.node, htnode]
  · rw [hu]
    exact hvio.trans (htio.trans hqio)

theorem fillToReachPos_grows (slots : Slots s es) (nonzero : ∀ e ∈ es, e ≠ 0)
    (ok : BlocksOk s.sbi) (size : s.node.iSize = total es) (gap : total es < pos)
    (small : pos ≤ 4194304) :
    (spaceAvailable s (gapBlocks es (pos - total es)) < 0 ∧
      ∃ u, fillToReachPos s pos = (u, none) ∧ u.disk = s.disk ∧ u.sbi = s.sbi ∧
        u.node = s.node ∧ Below 1024 s u) ∨
    (¬ spaceAvailable s (gapBlocks es (pos - total es)) < 0 ∧
      ∃ u fresh A L k p, fillToReachPos s pos = (u, some (k, p)) ∧ Grown s u es pos fresh A L ∧
        Landed es (A ++ pour L (pos - total es)) pos k p) := by
  obtain ⟨q, hq⟩ : ∃ q, q = s.touch ((es.length - 1 : Nat) : Int) := ⟨_, rfl⟩
  obtain ⟨nb, hnb⟩ : ∃ nb, nb = gapBlocks es (pos - total es) := ⟨_, rfl⟩
  have hlen := slots.length_le
  have hnbs : nb < 1000000000 := by
    have hle := Nat.div_le_self (pos - total es - lastRoom es) blockSize
    rw [hnb, gapBlocks, idivCeil]
    split <;> omega
  have hsame : spaceAvailable q nb = spaceAvailable s nb := by
    rw [hq]
    rfl
  rw [fillToReachPos_eq slots nonzero size hq, ← hnb, hsame]
  by_cases hspace : spaceAvailable s nb < 0
  · rw [if_pos hspace]
    refine Or.inl ⟨hspace, q, rfl, by rw [hq]; rfl, by rw [hq]; rfl, by rw [hq]; rfl, ?_⟩
    rw [hq]
    exact Below.touch s (by omega)
  refine Or.inr ⟨hspace, ?_⟩
  rw [if_neg hspace]
  rw [Slots.spaceAvailable_neg_iff slots hnbs] at hspace
  obtain ⟨u, fresh, A, L, hgrown, hcap, v, hu, hrun⟩ := fillLoop_grows slots ok size gap hq hnb
    (by omega) (by omega)
  obtain ⟨P, e, hes', hback, hfull, hopen⟩ := landed hgrown.tight hcap
  rw [hback] at hu
  have hlast : u.blocks (A ++ P).length = e := by
    have hslots := hgrown.slots
    rw [hes'] at hslots
    exact hslots.blocks_at
  simp only at hrun ⊢
  rw [hrun]
  simp only [fillEnd, hback, ← hu, hlast, blockSize]
  by_cases hsize : getBlockSize e = 4096
  · rw [if_pos hsize]
    exact ⟨u, fresh, A, L, _, _, rfl, hgrown, hfull hsize⟩
  · rw [if_neg hsize]
    exact ⟨u, fresh, A, L, _, _, rfl, hgrown, hopen hsize⟩

theorem fillToReachPos_spec (shape : Shape s es) (held : Held s es)
    (size : s.node.iSize = total es) (gap : total es < pos) (small : pos ≤ 4194304)
    (addr : Addressable s.sbi (gapBlocks es (pos - total es))) :
    (∃ u, fillToReachPos s pos = (u, none) ∧ u.disk = s.disk ∧ u.sbi = s.sbi ∧
      u.node = s.node) ∨
    ∃ u fresh es' k p, fillToReachPos s pos = (u, some (k, p)) ∧
      Filled s u es pos fresh es' ∧ Cursor es' k p ∧
      p = (4096 - lastRoom es + (pos - total es)) % 4096 := by
  rcases fillToReachPos_grows shape.toSlots held.nonzero held.ok size gap small with
    ⟨_, u, hrun, hdisk, hsbi, hnode, _⟩ | ⟨_, u, fresh, A, L, k, p, hrun, hgrown, hlanded⟩
  · exact Or.inl ⟨u, hrun, hdisk, hsbi, hnode⟩
  · exact Or.inr ⟨u, fresh, _, k, p, hrun, hgrown.filled shape held gap addr, hlanded.cursor,
      hlanded.offset⟩

end

end GapFill
