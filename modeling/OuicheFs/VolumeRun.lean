import OuicheFs.Lifecycle

/-!
# Runs of a mounted volume

From the formatted image on, any number of files and directories are created,
written, defragmented and removed in any order. In every state reached each
block has one owner.
-/
namespace VolumeRun

open CInt Bits ByteBuffer IndexEntry Allocator FileContext Layout OuicheWrite OuicheDefrag OuicheInode
  OuicheSuper Mkfs FileRun Ledger Ownership Lifecycle

/-- One operation on a mounted volume. Files and directories are live; no disk
read of an operation on inodes fails. -/
inductive Step : World → World → Prop
  | create (w : World) (who : Caller) (io : Io) (dir : Nat) (d : Inode) (name : List Byte)
      (mode : Nat) (r : World × Int) :
      LiveDir w dir d → io.NoReadFails →
      ouichefsCreate w who io dir name mode = some r → Step w r.1
  | mkdir (w : World) (who : Caller) (io : Io) (dir : Nat) (d : Inode) (name : List Byte)
      (mode : Nat) (r : World × Int) :
      LiveDir w dir d → io.NoReadFails →
      ouichefsMkdir w who io dir name mode = some r → Step w r.1
  | unlink (w : World) (io : Io) (dir ino : Nat) (d node : Inode) (r : World × Int) :
      LiveDir w dir d → live w ino = some node → sIsreg node.iMode = true → io.NoReadFails →
      ouichefsUnlink w io dir ino = some r → Step w r.1
  | rmdir (w : World) (io : Io) (dir ino : Nat) (d node : Inode) (r : World × Int) :
      LiveDir w dir d → live w ino = some node → sIsdir node.iMode = true → io.NoReadFails →
      ouichefsRmdir w io dir ino = some r → Step w r.1
  | call (w : World) (ino : Nat) (node : Inode) (t : Ctx) :
      live w ino = some node → sIsreg node.iMode = true →
      FileStep (w.ctx node calmIo) t → Step w (w.withCtx ino t)

theorem Step.inv {w w' : World} (h : WorldInv w) (step : Step w w') : WorldInv w' := by
  cases step with
  | create who io dir d name mode r parent reads run =>
    exact ouichefsCreate_inv h parent reads run
  | mkdir who io dir d name mode r parent reads run =>
    exact ouichefsCreate_inv h parent reads run
  | unlink io dir ino d node r parent own reg reads run =>
    refine ouichefsUnlink_inv h parent own ?_ reads run
    -- a regular file is not the directory it is in
    rintro rfl
    obtain rfl : node = d := Option.some.inj (own.symm.trans parent.live)
    rw [sIsreg_of_sIsdir parent.type] at reg
    cases reg
  | rmdir io dir ino d node r parent own _ reads run =>
    exact ouichefsRmdir_inv h parent own reads run
  | call ino node t own reg step =>
    obtain ⟨es, hinv, hholds⟩ := h.fileInv own reg calmIo
    obtain ⟨es', heff⟩ := step.effect hinv
    exact h.effect own reg hholds heff

theorem run_inv {w₀ w : World} (h : WorldInv w₀) (run : Relation.ReflTransGen Step w₀ w) :
    WorldInv w := by
  induction run with
  | refl => exact h
  | tail _ step ih => exact step.inv ih

/-! ## The formatted volume -/

theorem mounted_inv {sb : Superblock} {w : World} (m : Mounted sb w) (c : Counts sb)
    (large : 100 ≤ sb.nrBlocks) (small : sb.nrBlocks ≤ 524288) : WorldInv w := by
  obtain ⟨hle, hfree⟩ := c.free large
  have hused := c.used
  have hnodes := c.inodes
  obtain ⟨root, hcache, hindex, hdir⟩ := m.root
  have hmeta : metaEnd w.sbi = nrUsed sb - 1 := by
    unfold metaEnd
    rw [m.nrIstoreBlocks, m.nrIfreeBlocks, m.nrBfreeBlocks]
    omega
  have hroot : InUse w.sbi 1 := by
    refine ⟨by omega, by rw [m.nrInodes]; omega, ?_⟩
    rw [m.ifreeBitmap 1 (by omega)]
    rfl
  have honly : ∀ ino, InUse w.sbi ino → ino = 1 := by
    rintro ino ⟨hpos, hlt, hbit⟩
    rw [m.nrInodes] at hlt
    rw [m.ifreeBitmap ino hlt, decide_eq_false_iff_not] at hbit
    omega
  have hl : live w 1 = some root := live_eq_some.mpr ⟨hroot, by rw [hcache]; rfl⟩
  have hholds : holds w 1 = [nrUsed sb - 1] := by
    rw [holds_live hl, nodeBlocks, sIsreg_of_sIsdir hdir, hindex]
    rfl
  have hnone : ∀ ino, ino ≠ 1 → holds w ino = [] := fun ino hne =>
    holds_none (if_neg fun hin => hne (honly ino hin))
  refine ⟨⟨?_, ?_, ?_⟩, ?_, ?_, ?_, ?_, ⟨?_, ?_, ?_, ?_, ?_⟩⟩
  · rw [m.bfreeBitmap 0 (by omega)]
    exact decide_eq_false (by omega)
  · rw [m.nrFreeBlocks, m.nrBlocks, popcount_above m.bfreeBitmap, hfree]
  · rw [m.nrBlocks]
    omega
  · rw [m.nrBlocks]
    exact small
  · intro ino hin
    rw [honly ino hin]
    exact ⟨root, by rw [hcache]; rfl⟩
  · intro ino node hlive
    rw [honly ino (live_eq_some.mp hlive).1, hl] at hlive
    cases hlive
    refine ⟨Or.inl hdir, fun reg => ?_⟩
    rw [sIsreg_of_sIsdir hdir] at reg
    cases reg
  · intro ino node hno hc
    rw [hcache] at hc
    by_cases hone : ino = 1
    · rw [hone] at hno
      exact absurd hroot hno
    · simp only [if_neg hone] at hc
      cases hc
  · intro ino
    by_cases hone : ino = 1
    · rw [hone, hholds]
      exact List.nodup_singleton _
    · rw [hnone ino hone]
      exact List.nodup_nil
  · intro i j b hi hj
    by_cases hone : i = 1
    · by_cases hone' : j = 1
      · rw [hone, hone']
      · rw [hnone j hone'] at hj
        cases hj
    · rw [hnone i hone] at hi
      cases hi
  · intro ino b hb
    by_cases hone : ino = 1
    · rw [hone, hholds, List.mem_singleton] at hb
      subst hb
      rw [m.nrBlocks, hmeta, m.bfreeBitmap _ (by omega), decide_eq_true_iff]
      omega
    · rw [hnone ino hone] at hb
      cases hb
  · intro b hb
    rw [hmeta] at hb
    rw [m.bfreeBitmap b (by omega), decide_eq_true_iff]
    omega
  · intro b hb
    rw [m.nrBlocks] at hb
    rw [m.bfreeBitmap b hb, decide_eq_true_iff, hmeta]
    rcases Nat.lt_trichotomy b (nrUsed sb - 1) with hlt | heq | hgt
    · exact Or.inr (Or.inl hlt)
    · exact Or.inr (Or.inr ⟨1, by rw [hholds, heq]; exact List.mem_singleton_self _⟩)
    · exact Or.inl (by omega)

/-- Every volume of at most 2^19 blocks, from the mount on. -/
theorem formatted_inv {ok : Nat → Bool} {stSize : Nat} {disk image : Store} {who : Caller}
    {readable : Nat → Bool} {memory : Fin 4 → Bool} {w : World}
    (formatted : mkfs ok stSize disk = some image)
    (mount : ouichefsFillSuper image who readable memory = .ok w)
    (small : stSize / 4096 ≤ 524288) : WorldInv w := by
  have hmin : 409600 ≤ stSize := by
    by_contra hlt
    unfold mkfs at formatted
    rw [if_pos (by simp only [blockSize]; omega)] at formatted
    cases formatted
  have hn : (superblockOf stSize).nrBlocks = stSize / 4096 := by
    change u32 (stSize / 4096 : Nat) = _
    exact u32_natCast (by omega)
  exact mounted_inv (mounted formatted mount) (superblockOf_counts (mkfs_formatted formatted).1)
    (by omega) (by omega)

/-! ## Owners -/

inductive Owner where
  | free
  | metadata
  | index (ino : Nat)
  | data (ino slot : Nat)

/-- What a block is used for. A slot of an index is an entry if it is not zero. -/
def Owns (w : World) : Owner → Nat → Prop
  | .free, b => w.sbi.bfreeBitmap b = true
  | .metadata, b => b < metaEnd w.sbi
  | .index ino, b => ∃ node, live w ino = some node ∧ node.indexBlock = b
  | .data ino slot, b => ∃ node, live w ino = some node ∧ sIsreg node.iMode = true ∧
      slot < indexSlots ∧ (w.ctx node calmIo).blocks slot ≠ 0 ∧
      getBlockNumber ((w.ctx node calmIo).blocks slot) = b

section

variable {w : World} {b ino : Nat}

theorem owns_data {slot : Nat} (h : WorldInv w) (o : Owns w (.data ino slot) b) :
    ∃ node es, live w ino = some node ∧ holds w ino = node.indexBlock :: numbers es ∧
      slot < (numbers es).length ∧ (numbers es)[slot]? = some b := by
  obtain ⟨node, hl, reg, hslot, hne, rfl⟩ := o
  obtain ⟨es, hinv, hholds⟩ := h.fileInv hl reg calmIo
  have hword := hinv.shape.slots slot hslot
  have hlt : slot < es.length := by
    by_contra hge
    rw [List.getElem?_eq_none (by omega)] at hword
    exact hne hword
  rw [List.getElem?_eq_getElem hlt, Option.getD_some] at hword
  refine ⟨node, es, hl, hholds, by simpa [numbers] using hlt, ?_⟩
  rw [hword, numbers, List.getElem?_map, List.getElem?_eq_getElem hlt]
  rfl

theorem owns_of_holds (h : WorldInv w) (hb : b ∈ holds w ino) : ∃ o, Owns w o b := by
  cases hl : live w ino with
  | none =>
    rw [holds_none hl] at hb
    cases hb
  | some node =>
    by_cases reg : sIsreg node.iMode = true
    · obtain ⟨es, hinv, hholds⟩ := h.fileInv hl reg calmIo
      rw [hholds] at hb
      rcases List.mem_cons.mp hb with heq | hmem
      · exact ⟨.index ino, node, hl, heq.symm⟩
      · obtain ⟨slot, hslot, heq⟩ := List.getElem_of_mem hmem
        have hlt : slot < es.length := by simpa [numbers] using hslot
        have hle := hinv.shape.length_le
        have hword := hinv.shape.slots slot (by omega)
        rw [List.getElem?_eq_getElem hlt, Option.getD_some] at hword
        refine ⟨.data ino slot, node, hl, reg, by simp only [indexSlots]; omega, ?_, ?_⟩
        · rw [hword]
          exact hinv.held.nonzero _ (List.getElem_mem hlt)
        · rw [hword, ← heq]
          simp [numbers]
    · rw [holds_live hl, nodeBlocks, if_neg reg, List.mem_singleton] at hb
      exact ⟨.index ino, node, hl, hb.symm⟩

/-- A block that is neither free nor in front of the data area is held by the
inode that its owner names. -/
theorem owns_mem (h : WorldInv w) {o : Owner} (ho : Owns w o b) :
    o = .free ∨ o = .metadata ∨
      ∃ ino, b ∈ holds w ino ∧ (o = .index ino ∨ ∃ slot, o = .data ino slot) := by
  cases o with
  | free => exact Or.inl rfl
  | metadata => exact Or.inr (Or.inl rfl)
  | index ino =>
    obtain ⟨node, hl, rfl⟩ := ho
    exact Or.inr (Or.inr ⟨ino, index_mem_holds hl, Or.inl rfl⟩)
  | data ino slot =>
    obtain ⟨node, es, _, hholds, _, hat⟩ := owns_data h ho
    refine Or.inr (Or.inr ⟨ino, ?_, Or.inr ⟨slot, rfl⟩⟩)
    rw [hholds]
    exact List.mem_cons_of_mem _ (List.mem_of_getElem? hat)

/-- Within one inode a block is the index block or named by one slot. -/
theorem owner_unique_within (h : WorldInv w) {o o' : Owner}
    (hi : o = .index ino ∨ ∃ slot, o = .data ino slot)
    (hi' : o' = .index ino ∨ ∃ slot, o' = .data ino slot) (ho : Owns w o b) (ho' : Owns w o' b) :
    o = o' := by
  have hnodup := h.ledger.nodup ino
  have hmixed : ∀ slot, Owns w (.index ino) b → ¬ Owns w (.data ino slot) b := by
    rintro slot ⟨node, hl, rfl⟩ hd
    obtain ⟨node', es, hl', hholds, _, hat⟩ := owns_data h hd
    obtain rfl : node' = node := Option.some.inj (hl'.symm.trans hl)
    rw [hholds, List.nodup_cons] at hnodup
    exact hnodup.1 (List.mem_of_getElem? hat)
  rcases hi with rfl | ⟨slot, rfl⟩ <;> rcases hi' with rfl | ⟨slot', rfl⟩
  · rfl
  · exact absurd ho' (hmixed slot' ho)
  · exact absurd ho (hmixed slot ho')
  · obtain ⟨node, es, _, hholds, hlt, hat⟩ := owns_data h ho
    obtain ⟨node', es', _, hholds', _, hat'⟩ := owns_data h ho'
    have heq : numbers es = numbers es' := (List.cons.inj (hholds.symm.trans hholds')).2
    rw [hholds, List.nodup_cons] at hnodup
    rw [← heq, ← hat] at hat'
    rw [(List.getElem?_inj hlt hnodup.2).mp hat'.symm]

/-- Whoever owns a block, nobody else does. -/
theorem owner_unique (h : WorldInv w) {o o' : Owner} (ho : Owns w o b) (ho' : Owns w o' b) :
    o = o' := by
  have hplain : ∀ {ino}, b ∈ holds w ino → ¬ Owns w .free b ∧ ¬ Owns w .metadata b :=
    fun hb => (h.ledger.held _ b hb).2
  have hfm : Owns w .free b → ¬ Owns w .metadata b := fun hf hm =>
    h.ledger.reserved_taken b hm hf
  rcases owns_mem h ho with rfl | rfl | ⟨ino, hb, hi⟩ <;>
    rcases owns_mem h ho' with rfl | rfl | ⟨ino', hb', hi'⟩
  · rfl
  · exact absurd ho' (hfm ho)
  · exact absurd ho (hplain hb').1
  · exact absurd ho (hfm ho')
  · rfl
  · exact absurd ho (hplain hb').2
  · exact absurd ho' (hplain hb).1
  · exact absurd ho' (hplain hb).2
  · obtain rfl := h.ledger.disjoint ino ino' b hb hb'
    exact owner_unique_within h hi hi' ho ho'

theorem owner_exists (h : WorldInv w) (hb : b < w.sbi.nrBlocks) : ∃ o, Owns w o b := by
  rcases h.ledger.cover b hb with hfree | hmeta | ⟨ino, hmem⟩
  · exact ⟨.free, hfree⟩
  · exact ⟨.metadata, hmeta⟩
  · exact owns_of_holds h hmem

end

/-- On a formatted volume of at most 2^19 blocks every block has exactly one
owner at any time, and the free counter is right. -/
theorem exclusive_ownership (ok : Nat → Bool) (stSize : Nat) (disk image : Store) (who : Caller)
    (readable : Nat → Bool) (memory : Fin 4 → Bool) (w₀ w : World)
    (formatted : mkfs ok stSize disk = some image)
    (mount : ouichefsFillSuper image who readable memory = .ok w₀)
    (small : stSize / 4096 ≤ 524288) (run : Relation.ReflTransGen Step w₀ w) :
    (∀ b, b < w.sbi.nrBlocks → ∃! o, Owns w o b) ∧
      w.sbi.nrFreeBlocks = popcount w.sbi.bfreeBitmap w.sbi.nrBlocks := by
  have h := run_inv (formatted_inv formatted mount small) run
  refine ⟨fun b hb => ?_, h.blocks.counter⟩
  obtain ⟨o, ho⟩ := owner_exists h hb
  exact ⟨o, ho, fun o' ho' => owner_unique h ho' ho⟩

theorem toOption_eq_some {ε : Type} {α : Type} {e : Except ε α} {a : α}
    (h : e.toOption = some a) : e = .ok a := by
  cases e with
  | error e => cases h
  | ok b => rw [Option.some.inj h]

/-- An image of 100 blocks made over the bytes of `disk`, after the mount and after
the creation of a file. -/
def newFileOver (disk : Store) : Option (World × World) :=
  (mkfs (fun _ => true) 409600 disk).bind fun image =>
    (ouichefsFillSuper image ⟨0, 0, true⟩ (fun _ => true) (fun _ => true)).toOption.bind fun w =>
      (ouichefsCreate w ⟨0, 0, true⟩ calmIo 1 [97] 0o100644).map fun r => (w, r.1)

theorem newFileOver_run {disk : Store} {p : World × World} (h : newFileOver disk = some p) :
    ∃ image r, mkfs (fun _ => true) 409600 disk = some image ∧
      ouichefsFillSuper image ⟨0, 0, true⟩ (fun _ => true) (fun _ => true) = .ok p.1 ∧
      ouichefsCreate p.1 ⟨0, 0, true⟩ calmIo 1 [97] 0o100644 = some r ∧ r.1 = p.2 := by
  obtain ⟨image, himage, hp⟩ := Option.bind_eq_some_iff.mp h
  obtain ⟨w, hw, hp⟩ := Option.bind_eq_some_iff.mp hp
  obtain ⟨r, hr, rfl⟩ := Option.map_eq_some_iff.mp hp
  exact ⟨image, r, himage, toOption_eq_some hw, hr, rfl⟩

/-- An image of 100 blocks, after the mount and after the creation of a file. -/
def sampleRun : Option (World × World) := newFileOver (fun _ => zeroBlock)

theorem sampleRun_create : ∃ image w₀ d r node,
    mkfs (fun _ => true) 409600 (fun _ => zeroBlock) = some image ∧
    ouichefsFillSuper image ⟨0, 0, true⟩ (fun _ => true) (fun _ => true) = .ok w₀ ∧
    LiveDir w₀ 1 d ∧ ouichefsCreate w₀ ⟨0, 0, true⟩ calmIo 1 [97] 0o100644 = some r ∧
    live r.1 2 = some node ∧ sIsreg node.iMode = true := by
  have hroot : (sampleRun.bind fun p => live p.1 1).map (fun d => sIsdir d.iMode) = some true := by
    decide +kernel
  have hfile : (sampleRun.bind fun p => live p.2 2).map (fun n => sIsreg n.iMode) = some true := by
    decide +kernel
  obtain ⟨node, hnode, hreg⟩ := Option.map_eq_some_iff.mp hfile
  obtain ⟨p, hp, hlive⟩ := Option.bind_eq_some_iff.mp hnode
  obtain ⟨d, hd, hdir⟩ := Option.map_eq_some_iff.mp hroot
  rw [hp, Option.bind_some] at hd
  obtain ⟨image, r, himage, hw₀, hr, hr₂⟩ := newFileOver_run hp
  rw [← hr₂] at hlive
  exact ⟨image, p.1, d, r, node, himage, hw₀, ⟨hd, hdir⟩, hr, hlive, hreg⟩

theorem sampleRun_first {p : World × World} (hp : sampleRun = some p) : ∃ image d r,
    mkfs (fun _ => true) 409600 (fun _ => zeroBlock) = some image ∧
    ouichefsFillSuper image ⟨0, 0, true⟩ (fun _ => true) (fun _ => true) = .ok p.1 ∧
    LiveDir p.1 1 d ∧ ouichefsCreate p.1 ⟨0, 0, true⟩ calmIo 1 [97] 0o100644 = some r ∧
    r.1 = p.2 := by
  obtain ⟨image, _, d, _, _, himage, hw₀, hdir, _⟩ := sampleRun_create
  obtain ⟨_, r, himage', hw₁, hrun, heq⟩ := newFileOver_run hp
  obtain rfl := Option.some.inj (himage.symm.trans himage')
  obtain rfl := Except.ok.inj (hw₀.symm.trans hw₁)
  exact ⟨image, d, r, himage, hw₀, hdir, hrun, heq⟩

/-- `data` is inserted into the file 2. -/
def insertInto (w : World) (data : List Byte) (pos : Nat) : Option World :=
  (live w 2).bind fun node =>
    if sIsreg node.iMode then
      some (w.withCtx 2 (ouichefsLightWrite (w.ctx node calmIo) 1 data pos).ctx) else none

theorem insertInto_step {w w' : World} {data : List Byte} {pos : Nat}
    (h : insertInto w data pos = some w') : Step w w' := by
  obtain ⟨node, hl, h⟩ := Option.bind_eq_some_iff.mp h
  split at h
  · rename_i reg
    cases h
    exact .call w 2 node _ hl reg (.lightWrite _ calmIo 1 pos data)
  · cases h

/-- Into a file of four bytes one is inserted, another file is made, the first one is
defragmented, and the other one is removed. -/
theorem exclusive_ownership_written : ∃ w, (holds w 2).length = 2 ∧ live w 3 = none ∧
    (∀ b, b < w.sbi.nrBlocks → ∃! o, Owns w o b) ∧
    w.sbi.nrFreeBlocks = popcount w.sbi.bfreeBitmap w.sbi.nrBlocks := by
  have hsample : (sampleRun.bind fun p => (insertInto p.2 [65, 66, 67, 68] 0).bind fun u =>
      (insertInto u [69] 2).bind fun v => (live v 1).bind fun d =>
      (ouichefsCreate v ⟨0, 0, true⟩ calmIo 1 [98] 0o100644).bind fun r =>
      (live r.1 2).bind fun node => (ouichefsDefrag 10 (r.1.ctx node calmIo)).bind fun t =>
      (live (r.1.withCtx 2 t.1) 1).bind fun d' => (live (r.1.withCtx 2 t.1) 3).bind fun node' =>
      (ouichefsUnlink (r.1.withCtx 2 t.1) calmIo 1 3).map fun q => sIsdir d.iMode &&
        sIsreg node.iMode && sIsdir d'.iMode && sIsreg node'.iMode &&
        decide ((holds v 2).length = 3) && decide ((holds q.1 2).length = 2) &&
        decide (live q.1 3 = none)) = some true := by
    decide +kernel
  obtain ⟨p, hp, hsample⟩ := Option.bind_eq_some_iff.mp hsample
  obtain ⟨u, hu, hsample⟩ := Option.bind_eq_some_iff.mp hsample
  obtain ⟨v, hv, hsample⟩ := Option.bind_eq_some_iff.mp hsample
  obtain ⟨d, hd, hsample⟩ := Option.bind_eq_some_iff.mp hsample
  obtain ⟨r, hr, hsample⟩ := Option.bind_eq_some_iff.mp hsample
  obtain ⟨node, hn, hsample⟩ := Option.bind_eq_some_iff.mp hsample
  obtain ⟨t, ht, hsample⟩ := Option.bind_eq_some_iff.mp hsample
  obtain ⟨d', hd', hsample⟩ := Option.bind_eq_some_iff.mp hsample
  obtain ⟨node', hn', hsample⟩ := Option.bind_eq_some_iff.mp hsample
  obtain ⟨q, hq, hall⟩ := Option.map_eq_some_iff.mp hsample
  simp only [Bool.and_eq_true, decide_eq_true_eq] at hall
  obtain ⟨⟨⟨⟨⟨⟨hdir, hreg⟩, hdir'⟩, hreg'⟩, _⟩, htwo⟩, hgone⟩ := hall
  obtain ⟨image, d₀, r₁, himage, hw₀, hdir₀, hrun₁, heq⟩ := sampleRun_first hp
  have hcreate := Step.create _ _ calmIo 1 d₀ _ _ r₁ hdir₀ (fun _ => rfl) hrun₁
  rw [heq] at hcreate
  have hother := Step.create v _ calmIo 1 d _ _ r ⟨hd, hdir⟩ (fun _ => rfl) hr
  have hdefrag := Step.call r.1 2 node t.1 hn hreg (.defrag _ calmIo 10 t ht)
  have hremove := Step.unlink _ calmIo 1 3 d' node' q ⟨hd', hdir'⟩ hn' hreg' (fun _ => rfl) hq
  have hrun := (((((Relation.ReflTransGen.single hcreate).tail (insertInto_step hu)).tail
    (insertInto_step hv)).tail hother).tail hdefrag).tail hremove
  exact ⟨q.1, htwo, hgone, exclusive_ownership _ _ _ _ _ _ _ _ _ himage hw₀ (by decide) hrun⟩

end VolumeRun
