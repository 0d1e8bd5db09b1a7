import OuicheFs.Dir
import Mathlib.Data.List.TakeWhile

/-!
# The slots of a directory block

A directory block in order is a packed list of entries followed by empty slots.
Searching, removing and adding are operations on that list.
-/
namespace Directory

open CInt ByteBuffer FileContext OuicheInode OuicheDir

/-- The entries `es` stand at the front, every byte behind them is zero. -/
structure Packed (dblock : Buffer) (es : List DirFile) : Prop where
  length_le : es.length ≤ maxSubfiles
  slots : ∀ i, i < es.length → es[i]? = some (dirFile dblock i)
  used : ∀ e ∈ es, e.inode ≠ 0
  rest : ∀ i, es.length ≤ i → i < maxSubfiles → ∀ k, k < 32 → dblock (32 * i + k) = 0

theorem dirFile_congr {a b : Buffer} {i j : Nat}
    (h : ∀ k, k < 32 → a (32 * i + k) = b (32 * j + k)) : dirFile a i = dirFile b j := by
  have hinode : fileInode a i = fileInode b j := by
    have hfirst : a (32 * i) = b (32 * j) := h 0 (by decide)
    simp only [fileInode, le32]
    rw [hfirst, h 1 (by decide), h 2 (by decide), h 3 (by decide)]
  have hname : slice a (32 * i + 4) filenameLen = slice b (32 * j + 4) filenameLen := by
    apply slice_congr
    intro k hk
    unfold filenameLen at hk
    rw [Nat.add_assoc, Nat.add_assoc]
    exact h (4 + k) (by omega)
  rw [dirFile, dirFile, hinode, hname]

section

variable {dblock : Buffer} {es : List DirFile} {i ino : Nat}

theorem Packed.getElem (h : Packed dblock es) (lt : i < es.length) : es[i] = dirFile dblock i := by
  have hs := h.slots i lt
  rw [List.getElem?_eq_getElem lt] at hs
  exact Option.some.inj hs

theorem Packed.inode_ne_zero (h : Packed dblock es) (lt : i < es.length) :
    fileInode dblock i ≠ 0 := by
  have hne := h.used _ (List.getElem_mem lt)
  rw [h.getElem lt] at hne
  exact hne

theorem Packed.inode_eq_zero (h : Packed dblock es) (le : es.length ≤ i) (lt : i < maxSubfiles) :
    fileInode dblock i = 0 := by
  have hb := h.rest i le lt
  have hfirst : dblock (32 * i) = 0 := hb 0 (by decide)
  simp only [fileInode, le32]
  rw [hfirst, hb 1 (by decide), hb 2 (by decide), hb 3 (by decide)]
  rfl

theorem Packed.inode_eq_zero_iff (h : Packed dblock es) (lt : i < maxSubfiles) :
    fileInode dblock i = 0 ↔ es.length ≤ i := by
  constructor
  · intro hz
    by_contra hlt
    exact h.inode_ne_zero (by omega) hz
  · intro hle
    exact h.inode_eq_zero hle lt

/-- Packed blocks are determined by their slots. -/
theorem Packed.entry_iff (h : Packed dblock es) (f : DirFile) :
    f ∈ es ↔ ∃ i, i < maxSubfiles ∧ dirFile dblock i = f ∧ f.inode ≠ 0 := by
  have hl := h.length_le
  constructor
  · intro hf
    obtain ⟨i, hi, rfl⟩ := List.getElem_of_mem hf
    exact ⟨i, by omega, (h.getElem hi).symm, h.used _ hf⟩
  · rintro ⟨i, hi, rfl, hne⟩
    have hlt : i < es.length := by
      by_contra hge
      exact hne (h.inode_eq_zero (by omega) hi)
    rw [← h.getElem hlt]
    exact List.getElem_mem hlt

/-- What the search of a removal returns. -/
structure Found (es : List DirFile) (ino : Nat) (r : Option Nat × Nat) : Prop where
  count : r.2 = es.length
  slot : ∀ j, r.1 = some j → ∃ f, es[j]? = some f ∧ f.inode = ino
  missing : r.1 = none → ∀ f ∈ es, f.inode ≠ ino

theorem findSubLoop_found (h : Packed dblock es) (ne : ino ≠ 0) (n : Nat) :
    ∀ (i : Nat) (fId : Option Nat), i + n = maxSubfiles → i ≤ es.length →
      (∀ j, fId = some j → ∃ f, es[j]? = some f ∧ f.inode = ino) →
      (fId = none → ∀ f ∈ es.take i, f.inode ≠ ino) →
      Found es ino (findSubLoop dblock ino n i fId) := by
  induction n with
  | zero =>
    intro i fId hn hi hslot hmissing
    have hl := h.length_le
    have hall : i = es.length := by omega
    refine ⟨hall, hslot, ?_⟩
    intro hnone f hf
    apply hmissing hnone f
    rwa [hall, List.take_length]
  | succ n ih =>
    intro i fId hn hi hslot hmissing
    rw [findSubLoop]
    rcases Nat.lt_or_ge i es.length with hlt | hge
    · have hat := h.slots i hlt
      have hget := h.getElem hlt
      split
      · rename_i heq
        apply ih (i + 1) (some i) (by omega) (by omega)
        · rintro j ⟨⟩
          exact ⟨_, hat, heq⟩
        · rintro ⟨⟩
      · rename_i hne
        rw [if_neg (h.inode_ne_zero hlt)]
        apply ih (i + 1) fId (by omega) (by omega) hslot
        intro hnone f hf
        rw [List.take_succ_eq_append_getElem hlt] at hf
        rcases List.mem_append.mp hf with hold | hnew
        · exact hmissing hnone f hold
        · rw [List.mem_singleton.mp hnew, hget]
          exact hne
    · have hz := h.inode_eq_zero hge (show i < maxSubfiles by omega)
      rw [hz, if_neg (Ne.symm ne), if_pos rfl]
      have hall : i = es.length := by omega
      refine ⟨hall, hslot, ?_⟩
      intro hnone f hf
      apply hmissing hnone f
      rwa [hall, List.take_length]

/-- The search of a removal from its start. -/
theorem findSub_found (h : Packed dblock es) (ne : ino ≠ 0) :
    Found es ino (findSubLoop dblock ino maxSubfiles 0 none) :=
  findSubLoop_found h ne maxSubfiles 0 none (Nat.zero_add _) (Nat.zero_le _) (by rintro j ⟨⟩)
    (by simp)

/-- A byte of the block after a removal. -/
theorem removeSub_byte (dblock : Buffer) {fId nrSubs i k : Nat} (lt : fId < nrSubs)
    (le : nrSubs ≤ maxSubfiles) (hk : k < 32) :
    removeSub dblock fId nrSubs (32 * i + k) =
      if i = nrSubs - 1 then 0
      else if fId ≤ i ∧ i < nrSubs then dblock (32 * (i + 1) + k)
      else dblock (32 * i + k) := by
  unfold maxSubfiles at le
  unfold removeSub fill
  by_cases hlast : i = nrSubs - 1
  · rw [if_pos hlast, blit_inside _ _ (by omega) (by omega)]
  rw [if_neg hlast, blit_outside _ _ (by omega)]
  by_cases hmove : fId ≠ maxSubfiles - 1
  · rw [if_pos hmove]
    split
    · rw [blit_inside _ _ (by omega) (by omega)]
      congr 1
      omega
    · rw [blit_outside _ _ (by omega)]
  · rw [if_neg hmove]
    unfold maxSubfiles at hmove
    rw [if_neg (by omega)]

theorem Packed.remove (h : Packed dblock es) {fId : Nat} (lt : fId < es.length) :
    Packed (removeSub dblock fId es.length) (es.eraseIdx fId) := by
  have hl := h.length_le
  have hlen := List.length_eraseIdx_of_lt lt
  refine ⟨by omega, ?_, fun e he => h.used e (List.mem_of_mem_eraseIdx he), ?_⟩
  · intro i hi
    rw [hlen] at hi
    rw [List.getElem?_eraseIdx]
    split
    · rename_i hbefore
      rw [h.slots i (by omega)]
      refine congrArg some (dirFile_congr ?_)
      intro k hk
      rw [removeSub_byte dblock lt hl hk, if_neg (by omega), if_neg (by omega)]
    · rename_i hbehind
      rw [h.slots (i + 1) (by omega)]
      refine congrArg some (dirFile_congr ?_)
      intro k hk
      rw [removeSub_byte dblock lt hl hk, if_neg (by omega), if_pos (by omega)]
  · intro i hi hmax k hk
    rw [hlen] at hi
    rw [removeSub_byte dblock lt hl hk]
    split
    · rfl
    · rw [if_neg (by omega)]
      exact h.rest i (by omega) hmax k hk

end

/-- The name in a slot, without what follows its end. -/
def nameOf (f : DirFile) : List Byte := f.filename.takeWhile (· ≠ 0)

/-- A name that fits into a slot. -/
structure NameOk (name : List Byte) : Prop where
  pos : 0 < name.length
  lt : name.length < filenameLen
  nonzero : 0 ∉ name

theorem slice_succ (b : Buffer) (n : Nat) :
    slice b 0 (n + 1) = b 0 :: slice (fun k => b (k + 1)) 0 n := by
  simp [slice, List.range_succ_eq_map, Function.comp_def]

theorem strncmp_eq_zero_iff (n : Nat) : ∀ (cs ct : Nat → Byte), strncmp n cs ct = 0 ↔
    (slice cs 0 n).takeWhile (· ≠ 0) = (slice ct 0 n).takeWhile (· ≠ 0) := by
  induction n with
  | zero => exact fun _ _ => ⟨fun _ => rfl, fun _ => rfl⟩
  | succ n ih =>
    intro cs ct
    have hend : ∀ (s : Nat → Byte), s 0 = 0 → (slice s 0 (n + 1)).takeWhile (· ≠ 0) = [] := by
      intro s hs
      rw [slice_succ, List.takeWhile_cons_of_neg (by simpa using hs)]
    have hmore : ∀ (s : Nat → Byte), s 0 ≠ 0 → (slice s 0 (n + 1)).takeWhile (· ≠ 0) =
        s 0 :: (slice (fun k => s (k + 1)) 0 n).takeWhile (· ≠ 0) := by
      intro s hs
      rw [slice_succ, List.takeWhile_cons_of_pos (by simpa using hs)]
    rw [strncmp]
    by_cases hne : cs 0 ≠ ct 0
    · rw [if_pos hne]
      constructor
      · intro h
        split at h <;> cases h
      · intro h
        -- two strings with different first bytes are not both empty
        by_cases hs : cs 0 = 0 <;> by_cases ht : ct 0 = 0
        · exact absurd (hs.trans ht.symm) hne
        · rw [hend cs hs, hmore ct ht] at h
          cases h
        · rw [hmore cs hs, hend ct ht] at h
          cases h
        · rw [hmore cs hs, hmore ct ht] at h
          exact absurd (List.cons.inj h).1 hne
    · have heq : cs 0 = ct 0 := not_not.mp hne
      rw [if_neg hne]
      by_cases hz : cs 0 = 0
      · rw [if_pos hz, hend cs hz, hend ct (heq ▸ hz)]
        simp
      · rw [if_neg hz, ih, hmore cs hz, hmore ct (heq ▸ hz), heq]
        exact ⟨fun h => congrArg _ h, fun h => (List.cons.inj h).2⟩

/-- A terminated string is read back. -/
theorem takeWhile_slice {b : Buffer} {off n : Nat} {name : List Byte} (lt : name.length < n)
    (nonzero : 0 ∉ name) (bytes : ∀ k, k < name.length → b (off + k) = name.getD k 0)
    (stop : b (off + name.length) = 0) : (slice b off n).takeWhile (· ≠ 0) = name := by
  have hname : slice b off name.length = name := by
    apply List.ext_getElem (slice_length _ _ _)
    intro k _ hk
    simp only [slice, List.getElem_map, List.getElem_range]
    rw [bytes k hk, List.getD_eq_getElem _ _ hk]
  have hrest : slice b (off + name.length) (n - name.length) =
      0 :: slice b (off + name.length + 1) (n - name.length - 1) := by
    rw [show n - name.length = 1 + (n - name.length - 1) by omega, ← slice_append]
    simp [slice, stop]
  rw [show n = name.length + (n - name.length) by omega, ← slice_append, hname, hrest]
  rw [List.takeWhile_append_of_pos, List.takeWhile_cons_of_neg (by simp), List.append_nil]
  intro x hx
  rw [decide_eq_true_iff]
  exact ne_of_mem_of_not_mem hx nonzero

/-- A name without a zero that a comparison reads to its end. -/
theorem takeWhile_cString {name : List Byte} (le : name.length ≤ filenameLen)
    (nonzero : 0 ∉ name) : (slice (cString name) 0 filenameLen).takeWhile (· ≠ 0) = name := by
  rcases Nat.lt_or_ge name.length filenameLen with hlt | hge
  · refine takeWhile_slice hlt nonzero (fun k _ => ?_) ?_
    · rw [Nat.zero_add]
      rfl
    · simp [cString]
  · have hname : slice (cString name) 0 filenameLen = name := by
      apply List.ext_getElem
      · rw [slice_length]
        omega
      · intro k _ hk
        simp only [slice, List.getElem_map, List.getElem_range, Nat.zero_add]
        exact List.getD_eq_getElem _ _ hk
    rw [hname, List.takeWhile_eq_self_iff]
    intro x hx
    rw [decide_eq_true_iff]
    exact ne_of_mem_of_not_mem hx nonzero

theorem strncmp_name_iff {name : List Byte} (le : name.length ≤ filenameLen) (nonzero : 0 ∉ name)
    (dblock : Buffer) (i : Nat) :
    strncmp filenameLen (fileName dblock i) (cString name) = 0 ↔ nameOf (dirFile dblock i) = name := by
  have hslot : slice (fileName dblock i) 0 filenameLen = (dirFile dblock i).filename := by
    apply slice_congr
    intro k _
    rw [Nat.zero_add]
    rfl
  rw [strncmp_eq_zero_iff, takeWhile_cString le nonzero, hslot]
  rfl

theorem NameOk.strncmp_iff {name : List Byte} (ok : NameOk name) (dblock : Buffer) (i : Nat) :
    strncmp filenameLen (fileName dblock i) (cString name) = 0 ↔ nameOf (dirFile dblock i) = name :=
  strncmp_name_iff (Nat.le_of_lt ok.lt) ok.nonzero dblock i

section

variable {dblock : Buffer} {es : List DirFile} {i ino : Nat} {name : List Byte}

/-- An unused slot has no name. -/
theorem Packed.nameOf_rest (h : Packed dblock es) (le : es.length ≤ i) (lt : i < maxSubfiles) :
    nameOf (dirFile dblock i) = [] := by
  have hfirst : dblock (32 * i + 4) = 0 := h.rest i le lt 4 (by decide)
  have hslice : slice dblock (32 * i + 4) filenameLen =
      dblock (32 * i + 4) :: slice dblock (32 * i + 4 + 1) 27 := by
    rw [show filenameLen = 1 + 27 from rfl, ← slice_append]
    rfl
  unfold nameOf dirFile
  simp only
  rw [hslice, hfirst, List.takeWhile_cons_of_neg (by simp)]

/-- What a lookup returns. -/
structure LookedUp (es : List DirFile) (name : List Byte) (r : Option Nat) : Prop where
  found : ∀ ino, r = some ino → ∃ (j : Nat) (f : DirFile),
    es[j]? = some f ∧ nameOf f = name ∧ f.inode = ino
  missing : r = none → name ∉ es.map nameOf

/-- A lookup goes through the entries until it meets the name. -/
theorem lookupLoop_eq (h : Packed dblock es) (le : name.length ≤ filenameLen)
    (nonzero : 0 ∉ name) (n : Nat) : ∀ i, i + n = maxSubfiles →
      lookupLoop dblock name n i =
        ((es.drop i).find? (fun f => nameOf f = name)).map DirFile.inode := by
  have hl := h.length_le
  induction n with
  | zero =>
    intro i hn
    rw [List.drop_of_length_le (by omega)]
    rfl
  | succ n ih =>
    intro i hn
    rw [lookupLoop]
    rcases Nat.lt_or_ge i es.length with hlt | hge
    · rw [if_neg (h.inode_ne_zero hlt), List.drop_eq_getElem_cons hlt, h.getElem hlt]
      split
      · rename_i heq
        rw [List.find?_cons_of_pos]
        · rfl
        · rw [decide_eq_true_iff]
          exact (strncmp_name_iff le nonzero _ _).mp heq
      · rename_i hne
        rw [ih (i + 1) (by omega), List.find?_cons_of_neg]
        rw [decide_eq_true_iff]
        exact fun heq => hne ((strncmp_name_iff le nonzero _ _).mpr heq)
    · rw [if_pos (h.inode_eq_zero hge (by omega)), List.drop_of_length_le hge]
      rfl

theorem lookup_eq (h : Packed dblock es) (le : name.length ≤ filenameLen) (nonzero : 0 ∉ name) :
    lookupLoop dblock name maxSubfiles 0 =
      (es.find? (fun f => nameOf f = name)).map DirFile.inode :=
  lookupLoop_eq h le nonzero maxSubfiles 0 (Nat.zero_add _)

theorem lookup_lookedUp (h : Packed dblock es) (ok : NameOk name) :
    LookedUp es name (lookupLoop dblock name maxSubfiles 0) := by
  rw [lookup_eq h (Nat.le_of_lt ok.lt) ok.nonzero]
  constructor
  · intro ino hino
    obtain ⟨f, hf, rfl⟩ := Option.map_eq_some_iff.mp hino
    obtain ⟨j, hj⟩ := List.getElem?_of_mem (List.mem_of_find?_eq_some hf)
    exact ⟨j, f, hj, by simpa using List.find?_some hf, rfl⟩
  · intro hnone hmem
    obtain ⟨f, hf, heq⟩ := List.mem_map.mp hmem
    have := List.find?_eq_none.mp (Option.map_eq_none_iff.mp hnone) f hf
    simp [heq] at this

/-- What the scan of a rename returns when it goes through. -/
structure Scanned (same : Bool) (es : List DirFile) (oldName newName : List Byte)
    (r : Option Nat × Option Nat) : Prop where
  fresh : newName ∉ es.map nameOf
  fPos : ∀ j, r.1 = some j → ∃ f, es[j]? = some f ∧ nameOf f = oldName
  missing : same = true → r.1 = none → oldName ∉ es.map nameOf
  newPos : r.2 = if es.length < maxSubfiles then some es.length else none

theorem renameScan_scanned {same : Bool} {oldName newName : List Byte} (h : Packed dblock es)
    (old : NameOk oldName) (le : newName.length ≤ filenameLen) (nonzero : 0 ∉ newName) (n : Nat) :
    ∀ (i : Nat) (fPos newPos : Option Nat) (r : Option Nat × Option Nat), i + n = maxSubfiles →
      (∀ f ∈ es.take i, nameOf f ≠ newName) →
      (∀ j, fPos = some j → ∃ f, es[j]? = some f ∧ nameOf f = oldName) →
      (same = true → fPos = none → ∀ f ∈ es.take i, nameOf f ≠ oldName) →
      newPos = (if es.length < i then some es.length else none) →
      renameScan dblock same oldName newName n i fPos newPos = some r →
      Scanned same es oldName newName r := by
  have hl := h.length_le
  -- the slots behind `i` are the slots up to `i` and that one
  have hnext : ∀ (i : Nat) (name : List Byte), name.length ≤ filenameLen → 0 ∉ name →
      (∀ f ∈ es.take i, nameOf f ≠ name) →
      strncmp filenameLen (fileName dblock i) (cString name) ≠ 0 →
      ∀ f ∈ es.take (i + 1), nameOf f ≠ name := by
    intro i name hle hzero hnot hne f hfm
    rw [List.take_add_one, List.mem_append] at hfm
    rcases hfm with hold | hthis
    · exact hnot f hold
    · rw [Option.mem_toList] at hthis
      obtain ⟨hlt, rfl⟩ := List.getElem?_eq_some_iff.mp hthis
      rw [h.getElem hlt]
      exact fun heq => hne ((strncmp_name_iff hle hzero _ _).mpr heq)
  have hall : ∀ (name : List Byte), (∀ f ∈ es.take maxSubfiles, nameOf f ≠ name) →
      name ∉ es.map nameOf := by
    intro name hnot hmem
    obtain ⟨f, hfm, heq⟩ := List.mem_map.mp hmem
    rw [List.take_of_length_le hl] at hnot
    exact hnot f hfm heq
  induction n with
  | zero =>
    intro i fPos newPos r hn hnot hf hold hp run
    obtain rfl : i = maxSubfiles := hn
    cases run
    exact ⟨hall _ hnot, hf, fun hs hnone => hall _ (hold hs hnone), hp⟩
  | succ n ih =>
    intro i fPos newPos r hn hnot hf hold hp run
    rw [renameScan] at run
    simp only at run
    split at run
    · cases run
    rename_i hnew
    refine ih (i + 1) _ _ r (by omega) (hnext i newName le nonzero hnot hnew) ?_ ?_ ?_ run
    · intro j hj
      split at hj
      · rename_i hmatch
        cases hj
        have hname := (old.strncmp_iff _ _).mp hmatch.2
        have hlt : i < es.length := by
          by_contra hge
          rw [h.nameOf_rest (by omega) (by omega)] at hname
          have := old.pos
          rw [← hname] at this
          cases this
        exact ⟨_, h.slots i hlt, hname⟩
      · exact hf j hj
    · intro hs hnone
      split at hnone
      · cases hnone
      · rename_i hmatch
        exact hnext i oldName (Nat.le_of_lt old.lt) old.nonzero (hold hs hnone) fun heq =>
          hmatch ⟨hs, heq⟩
    · rcases Nat.lt_trichotomy i es.length with hlt | heq | hgt
      · rw [if_neg (fun hc => h.inode_ne_zero hlt hc.2), hp, if_neg (by omega), if_neg (by omega)]
      · rw [if_neg (by omega)] at hp
        rw [if_pos ⟨hp, h.inode_eq_zero (by omega) (by omega)⟩, if_pos (by omega), heq]
      · rw [if_pos hgt] at hp
        rw [if_neg (by rw [hp]; simp), if_pos (by omega), hp]

theorem rename_scanned {same : Bool} {oldName newName : List Byte} {r : Option Nat × Option Nat}
    (h : Packed dblock es) (old : NameOk oldName) (le : newName.length ≤ filenameLen)
    (nonzero : 0 ∉ newName)
    (run : renameScan dblock same oldName newName maxSubfiles 0 none none = some r) :
    Scanned same es oldName newName r :=
  renameScan_scanned h old le nonzero maxSubfiles 0 none none r (Nat.zero_add _) (by simp)
    (by rintro j ⟨⟩) (by simp) (by simp) run

theorem freeSlotLoop_eq (h : Packed dblock es) (n : Nat) : ∀ i, i + n = maxSubfiles →
    i ≤ es.length → freeSlotLoop dblock n i = es.length := by
  have hl := h.length_le
  induction n with
  | zero =>
    intro i hn hi
    rw [freeSlotLoop]
    omega
  | succ n ih =>
    intro i hn hi
    rw [freeSlotLoop]
    rcases Nat.lt_or_ge i es.length with hlt | hge
    · rw [if_neg (h.inode_ne_zero hlt)]
      exact ih (i + 1) (by omega) hlt
    · rw [if_pos (h.inode_eq_zero hge (by omega))]
      omega

/-- The blocks differ in the slot `i` at most. -/
def SameBut (a b : Buffer) (i : Nat) : Prop :=
  ∀ j, j ≠ i → ∀ k, k < 32 → b (32 * j + k) = a (32 * j + k)

theorem SameBut.trans {a b c : Buffer} (h : SameBut a b i) (h' : SameBut b c i) : SameBut a c i :=
  fun j hj k hk => (h' j hj k hk).trans (h j hj k hk)

theorem SameBut.dirFile_eq {a b : Buffer} (h : SameBut a b i) {j : Nat} (ne : j ≠ i) :
    dirFile b j = dirFile a j := dirFile_congr (h j ne)

theorem Packed.append {b : Buffer} (h : Packed dblock es) (same : SameBut dblock b es.length)
    (lt : es.length < maxSubfiles) (used : fileInode b es.length ≠ 0) :
    Packed b (es ++ [dirFile b es.length]) := by
  refine ⟨by simpa using Nat.succ_le_of_lt lt, ?_, ?_, ?_⟩
  · intro i hi
    rw [List.length_append, List.length_singleton] at hi
    rcases Nat.lt_or_ge i es.length with hlt | hge
    · rw [List.getElem?_append_left hlt, h.slots i hlt, same.dirFile_eq (by omega)]
    · obtain rfl : i = es.length := by omega
      simp
  · intro e he
    rcases List.mem_append.mp he with hold | hnew
    · exact h.used e hold
    · rw [List.mem_singleton.mp hnew]
      exact used
  · intro i hi hlt k hk
    rw [List.length_append, List.length_singleton] at hi
    rw [same i (by omega) k hk]
    exact h.rest i (by omega) hlt k hk

theorem Packed.replace {b : Buffer} (h : Packed dblock es) (same : SameBut dblock b i)
    (lt : i < es.length) (used : fileInode b i ≠ 0) : Packed b (es.set i (dirFile b i)) := by
  refine ⟨by simpa using h.length_le, ?_, ?_, ?_⟩
  · intro j hj
    rw [List.length_set] at hj
    by_cases hji : j = i
    · rw [hji, List.getElem?_set_self lt]
    · rw [List.getElem?_set_ne (Ne.symm hji), h.slots j hj, same.dirFile_eq hji]
  · intro e he
    rcases List.mem_or_eq_of_mem_set he with hold | rfl
    · exact h.used e hold
    · exact used
  · intro j hj hlt k hk
    rw [List.length_set] at hj
    rw [same j (by omega) k hk]
    exact h.rest j hj hlt k hk

theorem strscpy_sameBut (b : Buffer) (i : Nat) (lt : name.length < filenameLen) :
    SameBut b (strscpy b (32 * i + 4) filenameLen name) i := by
  intro j hj k hk
  unfold filenameLen at lt
  unfold strscpy
  simp only [filenameLen]
  exact blit_outside _ _ (by omega)

theorem putLe32_sameBut (b : Buffer) (i : Nat) (v : BitVec 32) :
    SameBut b (putLe32 b (32 * i) v) i := by
  intro j hj k hk
  exact blit_outside _ _ (by omega)

theorem nameOf_strscpy (b : Buffer) (i : Nat) (ok : NameOk name) :
    nameOf (dirFile (strscpy b (32 * i + 4) filenameLen name) i) = name := by
  have hlt := ok.lt
  unfold filenameLen at hlt
  have hmin : min name.length (filenameLen - 1) = name.length := by
    unfold filenameLen
    omega
  refine takeWhile_slice ok.lt ok.nonzero ?_ ?_
  · intro k hk
    unfold strscpy
    simp only [hmin]
    rw [blit_inside _ _ (by omega) (by omega), Nat.add_sub_cancel_left, if_pos hk]
  · unfold strscpy
    simp only [hmin]
    rw [blit_inside _ _ (by omega) (by omega), Nat.add_sub_cancel_left, if_neg (by omega)]

theorem fileInode_strscpy (b : Buffer) (i : Nat) (name : List Byte) :
    fileInode (strscpy b (32 * i + 4) filenameLen name) i = fileInode b i := by
  unfold fileInode strscpy
  rw [le32_blit_of_disjoint _ _ (by omega)]

/-- A new entry behind the others. -/
theorem Packed.insert (h : Packed dblock es) (lt : es.length < maxSubfiles) (ok : NameOk name)
    (pos : 0 < ino) (range : ino < 4294967296) : ∃ f, f.inode = ino ∧ nameOf f = name ∧
      Packed (strscpy (putLe32 dblock (32 * es.length) (BitVec.ofNat 32 ino))
        (32 * es.length + 4) filenameLen name) (es ++ [f]) := by
  obtain ⟨b, hb⟩ : ∃ b, b = strscpy (putLe32 dblock (32 * es.length) (BitVec.ofNat 32 ino))
    (32 * es.length + 4) filenameLen name := ⟨_, rfl⟩
  have hinode : fileInode b es.length = ino := by
    rw [hb, fileInode_strscpy]
    unfold fileInode
    rw [le32_putLe32_self, BitVec.toNat_ofNat]
    exact Nat.mod_eq_of_lt range
  have hsame : SameBut dblock b es.length := by
    rw [hb]
    exact (putLe32_sameBut _ _ _).trans (strscpy_sameBut _ _ ok.lt)
  refine ⟨dirFile b es.length, hinode, ?_, ?_⟩
  · rw [hb]
    exact nameOf_strscpy _ _ ok
  · rw [← hb]
    exact h.append hsame lt (by omega)

/-- An entry gets another name. -/
theorem Packed.rename (h : Packed dblock es) (lt : i < es.length) (ok : NameOk name) :
    ∃ f, f.inode = es[i].inode ∧ nameOf f = name ∧
      Packed (strscpy dblock (32 * i + 4) filenameLen name) (es.set i f) := by
  have hinode := fileInode_strscpy dblock i name
  refine ⟨_, ?_, nameOf_strscpy dblock i ok, h.replace (strscpy_sameBut _ _ ok.lt) lt ?_⟩
  · rw [h.getElem lt]
    exact hinode
  · rw [hinode]
    exact h.inode_ne_zero lt

/-- Counting over all slots is counting over the entries. -/
theorem Packed.countP_slots (h : Packed dblock es) {p : Nat → Bool} (zero : p 0 = false) :
    (List.range maxSubfiles).countP (fun i => p (fileInode dblock i)) =
      (es.map DirFile.inode).countP p := by
  have hl := h.length_le
  have hsplit : List.range maxSubfiles = List.range es.length ++
      (List.range (maxSubfiles - es.length)).map (es.length + ·) := by
    rw [← List.range_add]
    congr 1
    omega
  have hfront : (List.range es.length).map (fileInode dblock) = es.map DirFile.inode := by
    apply List.ext_getElem (by simp)
    intro i hi _
    rw [List.length_map, List.length_range] at hi
    simp only [List.getElem_map, List.getElem_range, h.getElem hi]
    rfl
  have hrest : (List.range (maxSubfiles - es.length)).countP
      (fun i => p (fileInode dblock (es.length + i))) = 0 := by
    rw [List.countP_eq_zero]
    intro i hi
    rw [List.mem_range] at hi
    rw [h.inode_eq_zero (by omega) (by omega), zero]
    simp
  rw [hsplit, List.countP_append, List.countP_map, Function.comp_def, hrest, Nat.add_zero,
    ← hfront, List.countP_map, Function.comp_def]

/-- A block of zeros has no entries. -/
theorem packed_nil (zero : ∀ o, o < 4096 → dblock o = 0) : Packed dblock [] := by
  refine ⟨by simp, by simp, by simp, ?_⟩
  intro i _ hi k hk
  unfold maxSubfiles at hi
  exact zero _ (by omega)

end

end Directory
