import OuicheFs.Reserve

/-!
# Filling a run of blocks

Both the gap fill and the copy loop extend the first block of a run and then
one empty block after the other. `pour L r` is the run after `r` bytes have
been added. The two loops are followed on it.
-/
namespace Pour

open CInt ByteBuffer IndexEntry Allocator FileContext Layout OuicheWrite Reserve

def capacity (L : List Word) : Nat := (L.map (fun e => 4096 - getBlockSize e)).sum

def pour : List Word → Nat → List Word
  | [], _ => []
  | e :: L, 0 => e :: L
  | e :: L, r + 1 =>
    let len := min (4096 - getBlockSize e) (r + 1)
    setBlockSize e ((getBlockSize e + len : Nat) : Int) :: pour L (r + 1 - len)

/-- Exactly the blocks of the run are needed for `r` bytes. -/
def Tight (L : List Word) (r : Nat) : Prop := capacity L.dropLast < r ∧ r ≤ capacity L

@[simp] theorem capacity_nil : capacity [] = 0 := rfl

@[simp] theorem capacity_cons (e : Word) (L : List Word) :
    capacity (e :: L) = 4096 - getBlockSize e + capacity L := by
  simp [capacity]

theorem capacity_of_sizes_zero {L : List Word} (h : ∀ e ∈ L, getBlockSize e = 0) :
    capacity L = 4096 * L.length := by
  induction L with
  | nil => rfl
  | cons e L ih =>
    rw [capacity_cons, h e List.mem_cons_self,
      ih (fun f hf => h f (List.mem_cons_of_mem e hf)), List.length_cons]
    omega

@[simp] theorem pour_zero (L : List Word) : pour L 0 = L := by
  cases L <;> rfl

theorem pour_cons_pos (e : Word) (L : List Word) {r : Nat} (h : 0 < r) :
    pour (e :: L) r =
      setBlockSize e ((getBlockSize e + min (4096 - getBlockSize e) r : Nat) : Int) ::
        pour L (r - min (4096 - getBlockSize e) r) := by
  obtain ⟨r, rfl⟩ : ∃ k, r = k + 1 := ⟨r - 1, by omega⟩
  rfl

@[simp] theorem numbers_pour (L : List Word) (r : Nat) : numbers (pour L r) = numbers L := by
  induction L generalizing r with
  | nil => rfl
  | cons e L ih =>
    cases r with
    | zero => rfl
    | succ r => simp [pour, ih]

@[simp] theorem pour_length (L : List Word) (r : Nat) : (pour L r).length = L.length := by
  have := congrArg List.length (numbers_pour L r)
  simpa [numbers] using this

theorem total_pour {L : List Word} {r : Nat} (h : r ≤ capacity L) :
    total (pour L r) = total L + r := by
  induction L generalizing r with
  | nil =>
    have : r = 0 := by simpa using h
    simp [this]
  | cons e L ih =>
    rcases Nat.eq_zero_or_pos r with rfl | pos
    · simp
    have hs := getBlockSize_le e
    rw [capacity_cons] at h
    rw [pour_cons_pos e L pos, total_cons, total_cons, ih (by omega),
      getBlockSize_setBlockSize_nat e (by omega)]
    omega

/-- No block of a run that is exactly needed stays empty. -/
theorem pour_pos {L : List Word} {r : Nat} (h : Tight L r) :
    ∀ e ∈ pour L r, 0 < getBlockSize e := by
  induction L generalizing r with
  | nil => simp [pour]
  | cons e L ih =>
    have hs := getBlockSize_le e
    have hr : 0 < r := by
      have := h.1
      omega
    intro f hf
    rw [pour_cons_pos e L hr] at hf
    cases L with
    | nil =>
      have hle := h.2
      simp only [capacity_cons, capacity_nil, Nat.add_zero] at hle
      rcases List.mem_cons.mp hf with rfl | hf
      · rw [getBlockSize_setBlockSize_nat e (by omega)]
        omega
      · simp [pour] at hf
    | cons d L =>
      obtain ⟨hlo, hhi⟩ := h
      rw [List.dropLast_cons_of_ne_nil (by simp)] at hlo
      rw [capacity_cons] at hlo hhi
      have hmin : min (4096 - getBlockSize e) r = 4096 - getBlockSize e := by omega
      rw [hmin] at hf
      rcases List.mem_cons.mp hf with rfl | hf
      · rw [getBlockSize_setBlockSize_nat e (by omega)]
        omega
      · exact ih ⟨by omega, by omega⟩ f hf

/-- In a run that is exactly needed, every block but the last ends up full. -/
theorem pour_full {L : List Word} {r : Nat} (h : Tight L r) :
    ∀ e ∈ (pour L r).dropLast, getBlockSize e = 4096 := by
  induction L generalizing r with
  | nil => simp [pour]
  | cons e L ih =>
    have hs := getBlockSize_le e
    have hr : 0 < r := by
      have := h.1
      omega
    intro f hf
    rw [pour_cons_pos e L hr] at hf
    cases L with
    | nil => simp [pour] at hf
    | cons d L =>
      obtain ⟨hlo, hhi⟩ := h
      rw [List.dropLast_cons_of_ne_nil (by simp)] at hlo
      rw [capacity_cons] at hlo hhi
      have hmin : min (4096 - getBlockSize e) r = 4096 - getBlockSize e := by omega
      have hne : pour (d :: L) (r - (4096 - getBlockSize e)) ≠ [] := by
        intro hnil
        have := congrArg List.length hnil
        simp at this
      rw [hmin, List.dropLast_cons_of_ne_nil hne] at hf
      rcases List.mem_cons.mp hf with rfl | hf
      · rw [getBlockSize_setBlockSize_nat e (by omega)]
        omega
      · exact ih ⟨by omega, by omega⟩ f hf

/-- All blocks but the last are full, and the last one holds a byte. -/
structure Dense (es : List Word) : Prop where
  full : ∀ f ∈ es.dropLast, getBlockSize f = 4096
  positive : ∀ f ∈ es, 0 < getBlockSize f

theorem Dense.all_full {es : List Word} (h : Dense es)
    (last : ∀ e, es.getLast? = some e → getBlockSize e = 4096) :
    ∀ f ∈ es, getBlockSize f = 4096 := by
  rcases List.eq_nil_or_concat es with rfl | ⟨A, e, rfl⟩
  · simp
  rw [List.concat_eq_append] at h last ⊢
  intro f hf
  rcases List.mem_append.mp hf with hA | he
  · apply h.full
    rw [List.dropLast_concat]
    exact hA
  · rw [List.mem_singleton.mp he]
    exact last e (by simp)

/-- Full blocks and a run behind them that takes just what it is needed for. -/
theorem dense_pour {A L : List Word} {r : Nat} (full : ∀ f ∈ A, getBlockSize f = 4096)
    (tight : Tight L r) : Dense (A ++ pour L r) := by
  have hne : pour L r ≠ [] := by
    intro hnil
    have hlen := congrArg List.length hnil
    rw [pour_length, List.length_nil] at hlen
    have hL := List.eq_nil_of_length_eq_zero hlen
    subst hL
    have h₁ := tight.1
    have h₂ := tight.2
    simp only [List.dropLast_nil, capacity_nil] at h₁ h₂
    omega
  constructor
  · intro f hf
    rw [List.dropLast_append_of_ne_nil hne] at hf
    rcases List.mem_append.mp hf with hA | hL
    · exact full f hA
    · exact pour_full tight f hL
  · intro f hf
    rcases List.mem_append.mp hf with hA | hL
    · rw [full f hA]
      decide
    · exact pour_pos tight f hL

/-- The last block of a run that is exactly needed takes all the room that is left. -/
theorem pour_last {L : List Word} {r : Nat} (h : Tight L r) :
    ∃ P e, pour L r = P ++ [e] ∧ getBlockSize e + capacity L = r + 4096 := by
  induction L generalizing r with
  | nil =>
    have := h.1
    have := h.2
    simp at *
    omega
  | cons d L ih =>
    have hs := getBlockSize_le d
    have hr : 0 < r := by
      have := h.1
      omega
    rw [pour_cons_pos d L hr]
    cases L with
    | nil =>
      have hle := h.2
      simp only [capacity_cons, capacity_nil, Nat.add_zero] at hle
      refine ⟨[], _, rfl, ?_⟩
      rw [getBlockSize_setBlockSize_nat d (by omega), capacity_cons, capacity_nil]
      omega
    | cons c L =>
      obtain ⟨hlo, hhi⟩ := h
      rw [List.dropLast_cons_of_ne_nil (by simp)] at hlo
      rw [capacity_cons] at hlo hhi
      have hmin : min (4096 - getBlockSize d) r = 4096 - getBlockSize d := by omega
      rw [hmin]
      obtain ⟨P, e, hpour, hsize⟩ := ih (r := r - (4096 - getBlockSize d)) ⟨by omega, by omega⟩
      refine ⟨_ :: P, e, by rw [hpour]; rfl, ?_⟩
      rw [capacity_cons]
      omega

/-- What a loop over a run of data blocks leaves alone. -/
structure DataOnly (s s' : Ctx) (L : List Word) : Prop where
  disk : ∀ b, b ≠ s.node.indexBlock → b ∉ numbers L → s'.disk b = s.disk b
  sbi : s'.sbi = s.sbi
  node : s'.node = s.node

theorem DataOnly.refl (s : Ctx) (L : List Word) : DataOnly s s L :=
  ⟨fun _ _ _ => rfl, rfl, rfl⟩

theorem DataOnly.cons {s t u : Ctx} {e : Word} {L : List Word} (h : DataOnly s t [e])
    (h' : DataOnly t u L) : DataOnly s u (e :: L) := by
  refine ⟨?_, h'.sbi.trans h.sbi, h'.node.trans h.node⟩
  intro b hb hL
  simp only [numbers_cons, List.mem_cons, not_or] at hL
  have hi : b ≠ t.node.indexBlock := by
    rw [h.node]
    exact hb
  rw [h'.disk b hi hL.2, h.disk b hb (by simpa using hL.1)]

/-- Two entries are resized and the bytes of their blocks rewritten. -/
structure Exchanged (s v : Ctx) (A : List Word) (e e' : Word) (M : List Word) (t t' : Word)
    (Z : List Word) : Prop where
  shape : Shape v (A ++ e' :: M ++ t' :: Z)
  frame : DataOnly s v [e, t]
  others : ∀ es, (∀ f ∈ es, f ∈ A ++ M ++ Z) → bytesOf v.disk es = bytesOf s.disk es

theorem exchange {s v : Ctx} {A M Z : List Word} {e e' t t' : Word}
    (shape : Shape s (A ++ e :: M ++ t :: Z)) (he : getBlockNumber e' = getBlockNumber e)
    (ht : getBlockNumber t' = getBlockNumber t) (at_e : v.blocks A.length = e')
    (at_t : v.blocks (A.length + 1 + M.length) = t')
    (blocks : ∀ i, i ≠ A.length → i ≠ A.length + 1 + M.length → v.blocks i = s.blocks i)
    (disk : ∀ b, b ≠ s.node.indexBlock → b ≠ getBlockNumber e → b ≠ getBlockNumber t →
      v.disk b = s.disk b)
    (sbi : v.sbi = s.sbi) (node : v.node = s.node) : Exchanged s v A e e' M t t' Z := by
  have shape1 : Shape s (A ++ e :: (M ++ t :: Z)) := by simpa using shape
  have shape2 : Shape s ((A ++ e :: M) ++ t :: Z) := by simpa using shape
  obtain ⟨hAe, hRe⟩ := shape1.others_ne
  obtain ⟨hFt, hZt⟩ := shape2.others_ne
  have hframe : DataOnly s v [e, t] := by
    refine ⟨?_, sbi, node⟩
    intro b hb hbs
    simp only [numbers_cons, numbers_nil, List.mem_cons, List.not_mem_nil, or_false, not_or] at hbs
    exact disk b hb hbs.1 hbs.2
  refine ⟨?_, hframe, ?_⟩
  · have hnum : numbers (A ++ e' :: M ++ t' :: Z) = numbers (A ++ e :: M ++ t :: Z) := by
      simp [he, ht]
    refine shape.rearrange ?_ (List.Perm.of_eq hnum) (by rw [node]) (by rw [node])
    intro i hi
    have hlen : (A ++ e :: M).length = A.length + 1 + M.length := by
      simp only [List.length_append, List.length_cons]
      omega
    have hlen' : (A ++ e' :: M).length = A.length + 1 + M.length := by
      simp only [List.length_append, List.length_cons]
      omega
    by_cases h1 : i = A.length
    · subst h1
      rw [at_e, List.append_assoc]
      simp
    by_cases h2 : i = A.length + 1 + M.length
    · subst h2
      rw [at_t, ← hlen']
      simp
    have hfirst := getElem?_replace (B := M ++ t' :: Z) e e' h1
    have hsecond := getElem?_replace (A := A ++ e :: M) (B := Z) t t' (by rw [hlen]; exact h2)
    simp only [List.append_assoc, List.cons_append] at hfirst hsecond ⊢
    rw [blocks i h1 h2, shape.slots i hi, hfirst, hsecond]
    simp
  · intro es hes
    apply bytesOf_congr
    intro f hf
    have hmem := hes f hf
    simp only [List.mem_append] at hmem
    apply disk
    · apply shape1.ne_index
      simp only [List.mem_append, List.mem_cons]
      tauto
    · rcases hmem with (hA | hM) | hZ
      · exact hAe f hA
      · exact hRe f (by simp [hM])
      · exact hRe f (by simp [hZ])
    · rcases hmem with (hA | hM) | hZ
      · exact hFt f (by simp [hA])
      · exact hFt f (by simp [hM])
      · exact hZt f hZ

/-! ## The filling loop -/

theorem fillLoop_le (toFill : Nat) (fuel : Nat) : ∀ (s : Ctx) (bli filled : Nat),
    bli ≤ (fillLoop toFill fuel s bli filled).2.1 := by
  induction fuel with
  | zero => exact fun _ _ _ => Nat.le_refl _
  | succ fuel ih =>
    intro s bli filled
    rw [fillLoop]
    split
    · exact (Nat.le_succ bli).trans (ih _ (bli + 1) _)
    · exact Nat.le_refl _

/-- The slots filled are those before the one the loop stops at. -/
theorem fillLoop_below {n : Nat} (toFill : Nat) (fuel : Nat) : ∀ (s : Ctx) (bli filled : Nat),
    (fillLoop toFill fuel s bli filled).2.1 ≤ n → Below n s (fillLoop toFill fuel s bli filled).1 := by
  induction fuel with
  | zero => exact fun s _ _ _ => Below.refl n s
  | succ fuel ih =>
    intro s bli filled
    rw [fillLoop]
    split
    · intro hle
      have hnext := (fillLoop_le toFill fuel _ (bli + 1) _).trans hle
      have hhere : ∀ t : Ctx, Below n t (t.touch bli) := fun t => Below.touch t (by omega)
      exact ((hhere s).trans (hhere (s.touch bli))).trans (ih _ (bli + 1) _ hle)
    · exact fun _ => Below.refl n s

/-- The filling loop over a run that is exactly needed extends it, and stops
right behind it. The bytes gained are whatever the blocks held. -/
theorem fillLoop_slots (L : List Word) :
    ∀ (A : List Word) (s : Ctx) (fuel filled toFill : Nat), Slots s (A ++ L) →
      L.length ≤ fuel → filled ≤ toFill → Tight L (toFill - filled) →
      ∃ t, fillLoop toFill fuel s A.length filled = (t, A.length + L.length, toFill) ∧
        Slots t (A ++ pour L (toFill - filled)) ∧ DataOnly s t [] ∧ t.io = s.io ∧
        ∀ i, A.length + L.length ≤ i → t.blocks i = s.blocks i := by
  induction L with
  | nil =>
    intro A s fuel filled toFill _ _ _ tight
    have := tight.1
    have := tight.2
    simp at *
    omega
  | cons e L ih =>
    intro A s fuel filled toFill shape hfuel hle tight
    obtain ⟨fuel, rfl⟩ : ∃ k, fuel = k + 1 := by
      simp only [List.length_cons] at hfuel
      exact ⟨fuel - 1, by omega⟩
    have hs := getBlockSize_le e
    have hlt : filled < toFill := by
      have := tight.1
      omega
    let len := min (toFill - filled) (4096 - getBlockSize e)
    let e' := setBlockSize e ((getBlockSize e + len : Nat) : Int)
    let t := (s.touch A.length).setBlocks A.length e'
    have hat : (s.touch A.length).blocks A.length = e := shape.blocks_at
    have hstep : fillLoop toFill (fuel + 1) s A.length filled =
        fillLoop toFill fuel t (A.length + 1) (filled + len) := by
      rw [fillLoop, if_pos hlt]
      simp only [hat, blockSize, addBlockSize]
      rfl
    have hshape : Slots t ((A ++ [e']) ++ L) := by
      rw [List.append_assoc]
      refine shape.replace (blocks_setBlocks_self _ _ _) ?_ rfl
      intro i _ hi
      exact blocks_setBlocks_of_ne _ _ hi
    have hdata : DataOnly s t [] :=
      ⟨fun b hb _ => disk_setBlocks_of_ne (s.touch A.length) _ _ hb, rfl, rfl⟩
    have hpour : pour (e :: L) (toFill - filled) =
        e' :: pour L (toFill - (filled + len)) := by
      rw [pour_cons_pos e L (by omega)]
      simp only [e', len]
      rw [Nat.min_comm (4096 - getBlockSize e), Nat.sub_add_eq]
    have hpast : ∀ {n}, ∀ i, A.length + (n + 1) ≤ i → t.blocks i = s.blocks i :=
      fun i hi => blocks_setBlocks_of_ne _ _ (by omega)
    rw [hstep, hpour]
    cases L with
    | nil =>
      have hcap := tight.2
      simp only [capacity_cons, capacity_nil, Nat.add_zero] at hcap
      have hall : filled + len = toFill := by omega
      refine ⟨t, ?_, by simpa [pour] using hshape, hdata, rfl, hpast⟩
      rw [hall]
      cases fuel with
      | zero => rfl
      | succ fuel =>
        rw [fillLoop, if_neg (by omega)]
        rfl
    | cons d L =>
      obtain ⟨hlo, hhi⟩ := tight
      rw [List.dropLast_cons_of_ne_nil (by simp)] at hlo
      rw [capacity_cons] at hlo hhi
      have hlen : len = 4096 - getBlockSize e := by omega
      simp only [List.length_cons] at hfuel
      obtain ⟨u, hu, hushape, hudata, huio, hupast⟩ := ih (A ++ [e']) t fuel (filled + len) toFill
        hshape (by simp only [List.length_cons]; omega) (by omega) ⟨by omega, by omega⟩
      refine ⟨u, ?_, by simpa using hushape, ?_, huio, fun i hi => ?_⟩
      · have hA : (A ++ [e']).length = A.length + 1 := by simp
        rw [hA] at hu
        rw [hu]
        simp only [List.length_cons]
        congr 2
        omega
      · refine ⟨?_, hudata.sbi.trans hdata.sbi, hudata.node.trans hdata.node⟩
        intro b hb _
        have hi : b ≠ t.node.indexBlock := by
          rw [hdata.node]
          exact hb
        rw [hudata.disk b hi (by simp), hdata.disk b hb (by simp)]
      · rw [hupast i (by simp only [List.length_append, List.length_cons, List.length_nil] at hi ⊢; omega),
          hpast i hi]

/-! ## The copy loop -/

theorem lightWriteLoop_below {m : Nat} (buff : List Byte) (n : Nat) :
    ∀ (s : Ctx) (lbi lp remaining : Nat), lbi + n ≤ m →
      Below m s (lightWriteLoop buff n s lbi lp remaining).1 := by
  induction n with
  | zero => exact fun s _ _ _ _ => Below.refl m s
  | succ n ih =>
    intro s lbi lp remaining hle
    have hhere : Below m s (s.touch lbi) := Below.touch s (by omega)
    rw [lightWriteLoop]
    split
    · exact Below.refl m s
    simp only
    split
    · exact hhere
    split
    · exact hhere
    have hcopy : ∀ bno len src,
        Below m s ((s.touch lbi).popBread.copyFromUser bno lp len src).1 :=
      fun bno len src => hhere.trans (Below.copyFromUser (s.touch lbi).popBread bno lp len src)
    split
    · exact hcopy _ _ _
    · exact ((hcopy _ _ _).trans (Below.setBlocks _ _ (by omega))).trans (ih _ (lbi + 1) 0 _ (by omega))

/-- Writing behind the recorded bytes of a block changes no content. -/
theorem entryBytes_blit_behind (disk : Store) (e : Word) (len : Nat) (src : Nat → Byte) :
    entryBytes (disk.set (getBlockNumber e)
      (blit (disk (getBlockNumber e)) (getBlockSize e) len src)) e = entryBytes disk e := by
  apply entryBytes_congr rfl
  intro k hk
  rw [set_self, blit_outside _ _ (Or.inl hk)]

/-- Recording the bytes written behind the old ones appends them. -/
theorem entryBytes_blit_append (disk : Store) (e : Word) {len : Nat} (src : Nat → Byte)
    (fits : getBlockSize e + len ≤ 4096) :
    let b := blit (disk (getBlockNumber e)) (getBlockSize e) len src
    entryBytes (disk.set (getBlockNumber e) b)
      (setBlockSize e ((getBlockSize e + len : Nat) : Int)) =
        entryBytes disk e ++ slice b (getBlockSize e) len := by
  intro b
  have hold := entryBytes_blit_behind disk e len src
  rw [← hold]
  simp only [entryBytes, getBlockNumber_setBlockSize, getBlockSize_setBlockSize_nat e fits,
    set_self]
  rw [← slice_append, Nat.zero_add]

/-- A write into the block of one entry leaves the bytes of the others alone. -/
theorem bytesOf_set_other (disk : Store) {es : List Word} {n : Nat} (b : Buffer)
    (h : ∀ f ∈ es, getBlockNumber f ≠ n) : bytesOf (disk.set n b) es = bytesOf disk es :=
  bytesOf_congr fun f hf => set_of_ne _ _ (h f hf)

/-- What the copy loop does to a run `L` between `A` and `Z`: some prefix of
the remaining bytes is appended to the run, all of them if it reports no error. -/
structure Copied (buff : List Byte) (s : Ctx) (A L Z : List Word) (remaining m : Nat)
    (r : Ctx × Int × Nat) : Prop where
  left : r.2.2 = remaining - m
  le : m ≤ remaining
  complete : r.2.1 = 0 → m = remaining
  code : r.2.1 ≤ 0
  shape : Shape r.1 (A ++ pour L m ++ Z)
  frame : DataOnly s r.1 L
  bytes : bytesOf r.1.disk (A ++ pour L m ++ Z) =
    bytesOf s.disk A ++ bytesOf s.disk L ++
      (buff.drop (buff.length - remaining)).take m ++ bytesOf s.disk Z

theorem Copied.stop {buff : List Byte} {s t : Ctx} {A L Z : List Word} {remaining : Nat}
    {ret : Int} (code : ret ≤ 0) (complete : ret = 0 → remaining = 0)
    (shape : Shape t (A ++ L ++ Z)) (frame : DataOnly s t L)
    (bytes : bytesOf t.disk (A ++ L ++ Z) = bytesOf s.disk (A ++ L ++ Z)) :
    Copied buff s A L Z remaining 0 (t, ret, remaining) := by
  refine ⟨rfl, Nat.zero_le _, fun h => (complete h).symm, code, by simpa using shape, frame, ?_⟩
  simp only [pour_zero, List.take_zero, List.append_nil]
  rw [bytes]
  simp

theorem Copied.step {buff : List Byte} {s t : Ctx} {A L Z : List Word} {e : Word}
    {remaining len m : Nat} {r : Ctx × Int × Nat} (size : getBlockSize e + len ≤ 4096)
    (len_pos : 0 < len) (len_le : len ≤ remaining) (range : remaining ≤ buff.length)
    (full : len < remaining → getBlockSize e + len = 4096)
    (frame : DataOnly s t [e])
    (other : bytesOf t.disk A = bytesOf s.disk A ∧ bytesOf t.disk L = bytesOf s.disk L ∧
      bytesOf t.disk Z = bytesOf s.disk Z)
    (mine : entryBytes t.disk (setBlockSize e ((getBlockSize e + len : Nat) : Int)) =
      entryBytes s.disk e ++ (buff.drop (buff.length - remaining)).take len)
    (zero : ∀ f ∈ L, getBlockSize f = 0)
    (c : Copied buff t (A ++ [setBlockSize e ((getBlockSize e + len : Nat) : Int)]) L Z
      (remaining - len) m r) :
    Copied buff s A (e :: L) Z remaining (len + m) r := by
  have hle := c.le
  have hpour : pour (e :: L) (len + m) =
      setBlockSize e ((getBlockSize e + len : Nat) : Int) :: pour L m := by
    rw [pour_cons_pos e L (by omega)]
    have hmin : min (4096 - getBlockSize e) (len + m) = len := by
      rcases Nat.eq_zero_or_pos m with rfl | hm
      · omega
      · have := full (by omega)
        omega
    rw [hmin, Nat.add_sub_cancel_left]
  have hempty : bytesOf s.disk L = [] := bytesOf_of_sizes_zero _ zero
  have hdrop : buff.length - (remaining - len) = buff.length - remaining + len := by omega
  refine ⟨?_, by omega, ?_, c.code, ?_, frame.cons c.frame, ?_⟩
  · rw [c.left]
    omega
  · intro h
    have := c.complete h
    omega
  · rw [hpour]
    simpa using c.shape
  · have hb := c.bytes
    simp only [bytesOf_append, bytesOf_cons, bytesOf_nil, List.append_nil, other.1, other.2.1,
      other.2.2, mine, hempty, hdrop, List.append_assoc] at hb
    rw [hpour]
    simp only [bytesOf_append, bytesOf_cons, List.append_assoc, hempty, List.append_nil]
    rw [hb, List.take_add, List.drop_drop]
    simp only [List.append_assoc]

/-- A write of `len` bytes right behind the recorded bytes of an entry. -/
structure Wrote (s t : Ctx) (e : Word) (len : Nat) (src : Nat → Byte) : Prop where
  disk : t.disk = s.disk.set (getBlockNumber e)
    (blit (s.disk (getBlockNumber e)) (getBlockSize e) len src)
  node : t.node = s.node
  sbi : t.sbi = s.sbi

theorem Wrote.nothing {s t : Ctx} (e : Word) (disk : t.disk = s.disk) (node : t.node = s.node)
    (sbi : t.sbi = s.sbi) : Wrote s t e 0 (fun _ => 0) := by
  refine ⟨?_, node, sbi⟩
  funext b i
  rw [disk]
  by_cases hb : b = getBlockNumber e
  · subst hb
    rw [set_self, blit_outside _ _ (by omega)]
  · rw [set_of_ne _ _ hb]

theorem Wrote.blocks {s t : Ctx} {e : Word} {len : Nat} {src : Nat → Byte}
    (w : Wrote s t e len src) (h : getBlockNumber e ≠ s.node.indexBlock) (i : Nat) :
    t.blocks i = s.blocks i :=
  blocks_congr (by rw [w.node]) (by rw [w.disk, set_of_ne _ _ h.symm]) i

theorem Wrote.dataOnly {s t : Ctx} {e : Word} {len : Nat} {src : Nat → Byte}
    (w : Wrote s t e len src) {L : List Word} (he : e ∈ L) : DataOnly s t L := by
  refine ⟨?_, w.sbi, w.node⟩
  intro b _ hb
  rw [w.disk, set_of_ne]
  rintro rfl
  exact hb (mem_numbers_of_mem he)

/-- The content does not change as long as the entry is not rewritten. -/
theorem Wrote.bytes {s t : Ctx} {e : Word} {len : Nat} {src : Nat → Byte}
    (w : Wrote s t e len src) {A B : List Word} (h : Shape s (A ++ e :: B)) :
    bytesOf t.disk (A ++ e :: B) = bytesOf s.disk (A ++ e :: B) := by
  obtain ⟨hA, hB⟩ := h.others_ne
  simp only [bytesOf_append, bytesOf_cons, w.disk]
  rw [bytesOf_set_other _ _ hA, bytesOf_set_other _ _ hB, entryBytes_blit_behind]

/-- One iteration of the copy loop: it stops with an error, or it writes behind
the recorded bytes, records them and goes on. -/
theorem lightWriteLoop_step {buff : List Byte} {s : Ctx} {lbi remaining n : Nat} {e : Word}
    (at_ : s.blocks lbi = e) (apart : getBlockNumber e ≠ s.node.indexBlock)
    (more : remaining ≠ 0) {len : Nat} (hlen : len = min (4096 - getBlockSize e) remaining) :
    (∃ t ret k src,
      lightWriteLoop buff (n + 1) s lbi (getBlockSize e) remaining = (t, ret, remaining) ∧
      Wrote s t e k src ∧ ret < 0) ∨
    (0 < len ∧ ∃ t, Wrote s t e len (fun k => buff.getD (buff.length - remaining + k) 0) ∧
      lightWriteLoop buff (n + 1) s lbi (getBlockSize e) remaining =
        lightWriteLoop buff n
          (t.setBlocks lbi (setBlockSize e ((getBlockSize e + len : Nat) : Int)))
          (lbi + 1) 0 (remaining - len)) := by
  have hs := getBlockSize_le e
  have hat : (s.touch lbi).blocks lbi = e := at_
  have hav : u64 ((blockSize : Int) - getBlockSize e) = 4096 - getBlockSize e :=
    u64_sub hs (by decide)
  rw [lightWriteLoop, if_neg more]
  simp only [hat, hav, ← hlen]
  by_cases hread : (s.touch lbi).io.bread 0 = false
  · left
    rw [if_pos hread]
    exact ⟨_, _, _, _, rfl, Wrote.nothing e rfl rfl rfl, by simp [errIo]⟩
  rw [if_neg hread]
  by_cases hfull : 4096 - getBlockSize e = 0
  · left
    rw [if_pos hfull]
    exact ⟨_, _, _, _, rfl, Wrote.nothing e rfl rfl rfl, by simp [errNodata]⟩
  rw [if_neg hfull]
  cases huc : (s.touch lbi).popBread.io.ucopy 0 with
  | some k =>
    left
    simp only [Ctx.copyFromUser, huc, if_true]
    exact ⟨_, _, len, _, rfl, ⟨rfl, rfl, rfl⟩, by simp [errIo]⟩
  | none =>
    right
    simp only [Ctx.copyFromUser, huc, Bool.true_eq_false, if_false]
    obtain ⟨t, ht⟩ : ∃ t : Ctx, t = { (s.touch lbi).popBread.popUcopy with
        disk := (s.touch lbi).popBread.disk.set (getBlockNumber e)
          (blit ((s.touch lbi).popBread.disk (getBlockNumber e)) (getBlockSize e) len
            (fun k => buff.getD (buff.length - remaining + k) 0)) } := ⟨_, rfl⟩
    have w : Wrote s t e len (fun k => buff.getD (buff.length - remaining + k) 0) := by
      rw [ht]
      exact ⟨rfl, rfl, rfl⟩
    refine ⟨by omega, t, w, ?_⟩
    rw [← ht, w.blocks apart lbi, at_]
    push_cast
    rfl

theorem lightWriteLoop_spec (buff : List Byte) (L : List Word) :
    ∀ (A Z : List Word) (s : Ctx) (n lp remaining : Nat), Shape s (A ++ L ++ Z) →
      L.length ≤ n → (∀ e, L.head? = some e → lp = getBlockSize e) →
      (∀ e ∈ L.tail, getBlockSize e = 0) → remaining ≤ buff.length →
      remaining ≤ capacity L →
      ∃ m, Copied buff s A L Z remaining m (lightWriteLoop buff n s A.length lp remaining) := by
  induction L with
  | nil =>
    intro A Z s n lp remaining shape _ _ _ _ hcap
    have hz : remaining = 0 := by simpa using hcap
    subst hz
    have hrun : lightWriteLoop buff n s A.length lp 0 = (s, 0, 0) := by
      cases n <;> rfl
    rw [hrun]
    exact ⟨0, Copied.stop (le_refl _) (fun _ => rfl) shape (DataOnly.refl s _) rfl⟩
  | cons e L ih =>
    intro A Z s n lp remaining shape hn hlp hzero hrange hcap
    obtain ⟨n, rfl⟩ : ∃ k, n = k + 1 := by
      simp only [List.length_cons] at hn
      exact ⟨n - 1, by omega⟩
    have hlp : lp = getBlockSize e := hlp e rfl
    subst hlp
    have hs := getBlockSize_le e
    have hzero : ∀ f ∈ L, getBlockSize f = 0 := hzero
    have hshape : Shape s (A ++ e :: (L ++ Z)) := by simpa using shape
    have hne : getBlockNumber e ≠ s.node.indexBlock := hshape.ne_index (by simp)
    by_cases hrem : remaining = 0
    · subst hrem
      rw [lightWriteLoop, if_pos rfl]
      exact ⟨0, Copied.stop (le_refl _) (fun _ => rfl) shape (DataOnly.refl s _) rfl⟩
    obtain ⟨len, hlen⟩ : ∃ len, len = min (4096 - getBlockSize e) remaining := ⟨_, rfl⟩
    rcases lightWriteLoop_step hshape.blocks_at hne hrem hlen with
      ⟨t, ret, k, src, hrun, w, hret⟩ | ⟨hpos, t, w, hrun⟩
    · -- an error: the bytes that may have been written are not recorded
      rw [hrun]
      refine ⟨0, Copied.stop (by omega) (by omega) ?_ (w.dataOnly List.mem_cons_self) ?_⟩
      · exact shape.congr (fun i _ => w.blocks hne i) (by rw [w.node]) (by rw [w.node])
      · simpa using w.bytes hshape
    · rw [hrun]
      have hfits : getBlockSize e + len ≤ 4096 := by omega
      obtain ⟨e', he'⟩ : ∃ e', e' = setBlockSize e ((getBlockSize e + len : Nat) : Int) := ⟨_, rfl⟩
      obtain ⟨u, hu⟩ : ∃ u, u = t.setBlocks A.length e' := ⟨_, rfl⟩
      have hnum : getBlockNumber e' = getBlockNumber e := by rw [he']; simp
      have hindex : t.node.indexBlock = s.node.indexBlock := by rw [w.node]
      have hdisk : ∀ b, b ≠ s.node.indexBlock → u.disk b = t.disk b := by
        intro b hb
        rw [hu]
        exact disk_setBlocks_of_ne t _ _ (hindex ▸ hb)
      have hnode : u.node = s.node := by rw [hu]; exact w.node
      have hushape : Shape u ((A ++ [e']) ++ L ++ Z) := by
        have := @Shape.replace _ u _ _ _ _ hshape hnum (by rw [hu]; exact blocks_setBlocks_self _ _ _)
          (fun i _ hi => by rw [hu, blocks_setBlocks_of_ne t e' hi]; exact w.blocks hne i)
          (by rw [hnode]) (by rw [hnode])
        simpa using this
      have huframe : DataOnly s u [e] := by
        refine ⟨?_, by rw [hu]; exact w.sbi, hnode⟩
        intro b hb hbe
        rw [hdisk b hb]
        exact (w.dataOnly List.mem_cons_self).disk b hb hbe
      obtain ⟨hneA, hneLZ⟩ := hshape.others_ne
      have hother : ∀ es, (∀ f ∈ es, getBlockNumber f ≠ getBlockNumber e) →
          (∀ f ∈ es, f ∈ A ++ e :: (L ++ Z)) → bytesOf u.disk es = bytesOf s.disk es := by
        intro es h1 h2
        apply bytesOf_congr
        intro f hf
        exact huframe.disk _ (hshape.ne_index (h2 f hf)) (by simpa using h1 f hf)
      have hmine : entryBytes u.disk e' =
          entryBytes s.disk e ++ (buff.drop (buff.length - remaining)).take len := by
        have h1 : entryBytes u.disk e' = entryBytes t.disk e' :=
          entryBytes_congr rfl fun k _ => by rw [hdisk _ (hnum ▸ hne)]
        rw [h1, w.disk, he', entryBytes_blit_append s.disk e _ hfits,
          slice_blit_list _ _ _ _ _ (by omega)]
      obtain ⟨m, hm⟩ := ih (A ++ [e']) Z u n 0 (remaining - len) hushape
        (by simp only [List.length_cons] at hn; omega)
        (fun f hf => (hzero f (List.mem_of_mem_head? hf)).symm)
        (fun f hf => hzero f (List.mem_of_mem_tail hf)) (by omega)
        (by rw [capacity_cons] at hcap; omega)
      have hA : (A ++ [e']).length = A.length + 1 := by simp
      rw [hA, he'] at hm
      rw [he'] at hmine hu
      rw [← hu]
      refine ⟨len + m, Copied.step hfits hpos (by omega) hrange (fun h => by omega) huframe
        ⟨hother A hneA (fun f hf => by simp [hf]),
          hother L (fun f hf => hneLZ f (List.mem_append_left Z hf)) (fun f hf => by simp [hf]),
          hother Z (fun f hf => hneLZ f (List.mem_append_right L hf)) (fun f hf => by simp [hf])⟩
        hmine hzero hm⟩

end Pour
