import OuicheFs.Lifecycle
import OuicheFs.Directory

/-!
# Created names and lookups

`ouichefs_create` accepts names of up to 28 bytes, `strscpy` keeps 27 of them and
a terminator, and `ouichefs_lookup` compares 28. A name of at most 27 bytes is
found afterwards and no other lookup changes; the last byte of a name of 28 bytes
is lost, so the name is not found.
-/
namespace Naming

open CInt Bits ByteBuffer Allocator FileContext Reserve OuicheInode OuicheDir Ownership Lifecycle
  Directory

/-- What a lookup reports, without the inodes it touches on the way. -/
def lookupResult (w : World) (who : Caller) (io : Io) (dir : Nat) (name : List Byte) :
    Option (Except Int (Option Nat)) := (ouichefsLookup w who io dir name).map Prod.snd

/-- The name leads to an inode that has come into use, and all other names lead
where they led before. -/
structure Resolves (w w' : World) (dir : Nat) (name : List Byte) : Prop where
  found : ∃ ino, ¬ InUse w.sbi ino ∧ InUse w'.sbi ino ∧
    ∀ who io, who.memory = true → io.NoReadFails →
      lookupResult w' who io dir name = some (.ok (some ino))
  others : ∀ who io name', io.NoReadFails → 0 ∉ name' → name' ≠ name →
    lookupResult w' who io dir name' = lookupResult w who io dir name'

/-! ## The block -/

theorem strscpy_take (b : Buffer) (off : Nat) (name : List Byte) :
    strscpy b off filenameLen name = strscpy b off filenameLen (name.take (filenameLen - 1)) := by
  have hlen : min (name.take (filenameLen - 1)).length (filenameLen - 1) =
      min name.length (filenameLen - 1) := by
    rw [List.length_take]
    omega
  unfold strscpy
  simp only [hlen]
  congr 1
  funext k
  by_cases hk : k < min name.length (filenameLen - 1)
  · rw [if_pos hk, if_pos hk]
    simp only [List.getD_eq_getElem?_getD]
    rw [List.getElem?_take_of_lt (by omega)]
  · rw [if_neg hk, if_neg hk]

section

variable {dblock : Buffer} {es : List DirFile} {ino : Nat} {name : List Byte}

/-- Of a name only what fits in front of the terminator is entered. -/
theorem Packed.enter (h : Packed dblock es) (lt : es.length < maxSubfiles) (nonempty : name ≠ [])
    (nonzero : 0 ∉ name) (pos : 0 < ino) (range : ino < 4294967296) :
    ∃ f, f.inode = ino ∧ nameOf f = name.take (filenameLen - 1) ∧
      Packed (Lifecycle.enter dblock ino name) (es ++ [f]) := by
  have hok : NameOk (name.take (filenameLen - 1)) := by
    have hlen := List.length_pos_iff.mpr nonempty
    constructor
    · rw [List.length_take]
      simp only [filenameLen]
      omega
    · rw [List.length_take]
      simp only [filenameLen]
      omega
    · exact fun hmem => nonzero (List.mem_of_mem_take hmem)
  obtain ⟨f, hino, hname, hpacked⟩ := h.insert lt hok pos range
  refine ⟨f, hino, hname, ?_⟩
  unfold Lifecycle.enter
  simp only
  rw [freeSlotLoop_eq h maxSubfiles 0 (Nat.zero_add _) (Nat.zero_le _), strscpy_take]
  exact hpacked

end

/-! ## The call -/

section

variable {w w' : World} {dir : Nat} {d : Inode} {name : List Byte}

theorem ouichefsIget_ok_iff (w : World) (who : Caller) (ino : Nat) :
    (∃ w₁, ouichefsIget w who true ino = .ok w₁) ↔ ino < w.sbi.nrInodes ∧ who.memory = true := by
  unfold ouichefsIget
  by_cases hrange : ino ≥ w.sbi.nrInodes
  · simp [hrange, Nat.not_lt.mpr hrange]
  by_cases hmem : who.memory = false
  · simp [hrange, hmem]
  rw [if_neg hrange, if_neg hmem]
  refine ⟨fun _ => ⟨Nat.not_le.mp hrange, by simpa using hmem⟩, fun _ => ?_⟩
  split
  · exact ⟨_, rfl⟩
  · exact ⟨_, rfl⟩

/-- What a lookup reports is decided by the block of the directory. -/
theorem lookupResult_eq {who : Caller} {io : Io} (cached : w.icache dir = some d)
    (reads : io.NoReadFails) : lookupResult w who io dir name =
      if name.length > filenameLen then some (.error (-errNametoolong)) else
      match lookupLoop (w.disk d.indexBlock) name maxSubfiles 0 with
      | none => some (.ok none)
      | some ino => if ino < w.sbi.nrInodes ∧ who.memory = true then some (.ok (some ino)) else none := by
  unfold lookupResult ouichefsLookup
  rw [cached, Option.bind_some]
  split
  · rfl
  rw [if_neg (by rw [reads 0]; simp), reads 1]
  cases lookupLoop (w.disk d.indexBlock) name maxSubfiles 0 with
  | none => rfl
  | some ino =>
    simp only
    by_cases hok : ino < w.sbi.nrInodes ∧ who.memory = true
    · obtain ⟨w₁, hget⟩ := (ouichefsIget_ok_iff w who ino).mpr hok
      rw [hget, if_pos hok]
      rfl
    · rw [if_neg hok]
      cases hget : ouichefsIget w who true ino with
      | error _ => rfl
      | ok w₁ => exact absurd ((ouichefsIget_ok_iff w who ino).mp ⟨w₁, hget⟩) hok

/-- A name that is not found is not in the block, whichever lookup says so. -/
theorem lookupLoop_of_absent {who : Caller} {io : Io} (cached : w.icache dir = some d)
    (absent : lookupResult w who io dir name = some (.ok none)) :
    lookupLoop (w.disk d.indexBlock) name maxSubfiles 0 = none := by
  unfold lookupResult ouichefsLookup at absent
  rw [cached, Option.bind_some] at absent
  split at absent
  · cases absent
  split at absent
  · cases absent
  split at absent
  · assumption
  · split at absent
    · cases absent
    · cases absent

end

/-- The directory before and after a creation: the entry `f` has been added behind
the others, and none of them had the name. -/
structure Entered (w w' : World) (dir : Nat) (name : List Byte) (f : DirFile) : Prop where
  unused : ¬ InUse w.sbi f.inode
  used : InUse w'.sbi f.inode
  nrInodes : w'.sbi.nrInodes = w.sbi.nrInodes
  kept : nameOf f = name.take (filenameLen - 1)
  accepted : name.length ≤ filenameLen
  blocks : ∃ d d' es, w.icache dir = some d ∧ w'.icache dir = some d' ∧
    Packed (w.disk d.indexBlock) es ∧ Packed (w'.disk d'.indexBlock) (es ++ [f]) ∧
    es.find? (fun g => nameOf g = name) = none

section

variable {w w' : World} {dir : Nat} {name : List Byte} {f : DirFile}

/-- The new entry is the last one to answer for a name. -/
theorem lookup_entered {dblock : Buffer} {es : List DirFile} (packed : Packed dblock (es ++ [f]))
    (le : name.length ≤ filenameLen) (nonzero : 0 ∉ name) :
    lookupLoop dblock name maxSubfiles 0 = ((es.find? (fun g => nameOf g = name)).or
      (if nameOf f = name then some f else none)).map DirFile.inode := by
  rw [lookup_eq packed le nonzero, List.find?_append]
  by_cases heq : nameOf f = name
  · simp [heq]
  · simp [heq]

/-- A name that was cut is not found. -/
theorem Entered.short (h : Entered w w' dir name f) (nonzero : 0 ∉ name)
    (found : ∃ ino, lookupResult w' ⟨0, 0, true⟩ calmIo dir name = some (.ok (some ino))) :
    name.length < filenameLen := by
  obtain ⟨d, d', es, _, hd', _, hpacked, hmiss⟩ := h.blocks
  obtain ⟨ino, hlook⟩ := found
  by_contra hlong
  have hne : nameOf f ≠ name := by
    intro heq
    have hlen := congrArg List.length (h.kept.symm.trans heq)
    rw [List.length_take] at hlen
    simp only [filenameLen] at hlen hlong
    omega
  rw [lookupResult_eq hd' (fun _ => rfl), if_neg (Nat.not_lt.mpr h.accepted),
    lookup_entered hpacked h.accepted nonzero, hmiss, if_neg hne] at hlook
  cases hlook

/-- A name that was kept is found, and no other name is affected. -/
theorem Entered.resolves (h : Entered w w' dir name f) (nonzero : 0 ∉ name)
    (short : name.length < filenameLen) : Resolves w w' dir name := by
  obtain ⟨d, d', es, hd, hd', packed, hpacked, hmiss⟩ := h.blocks
  have hfits : nameOf f = name := by
    rw [h.kept]
    apply List.take_of_length_le
    simp only [filenameLen] at short ⊢
    omega
  constructor
  · refine ⟨f.inode, h.unused, h.used, ?_⟩
    intro who io hmem hreads
    rw [lookupResult_eq hd' hreads, if_neg (Nat.not_lt.mpr h.accepted),
      lookup_entered hpacked h.accepted nonzero, hmiss, if_pos hfits]
    change (if f.inode < w'.sbi.nrInodes ∧ who.memory = true then _ else _) = _
    rw [if_pos ⟨h.used.2.1, hmem⟩]
  · intro who io name' hreads hnz hne
    rw [lookupResult_eq hd' hreads, lookupResult_eq hd hreads, h.nrInodes]
    by_cases hlong : name'.length > filenameLen
    · rw [if_pos hlong, if_pos hlong]
    · rw [if_neg hlong, if_neg hlong, lookup_entered hpacked (Nat.not_lt.mp hlong) hnz,
        if_neg (fun heq => hne (heq.symm.trans hfits)), Option.or_none,
        lookup_eq packed (Nat.not_lt.mp hlong) hnz]

end

/-- A created name resolves if and only if it leaves room for the terminator. -/
theorem created_resolves_iff (w w' : World) (who who₀ : Caller) (io io₀ : Io) (dir mode : Nat)
    (d : Inode) (es : List DirFile) (name : List Byte) (parent : LiveDir w dir d)
    (taken : w.sbi.bfreeBitmap d.indexBlock = false) (range : w.sbi.nrInodes ≤ 4294967296)
    (packed : Packed (w.disk d.indexBlock) es) (room : es.length < maxSubfiles)
    (nonempty : name ≠ []) (nonzero : 0 ∉ name) (accepted : name.length ≤ filenameLen)
    (absent : lookupResult w who₀ io₀ dir name = some (.ok none))
    (created : ouichefsCreate w who io dir name mode = some (w', 0)) :
    Resolves w w' dir name ↔ name.length < filenameLen := by
  have hd := (live_eq_some.mp parent.live).2
  rcases ouichefsCreate_cases parent taken created with ⟨hneg, _⟩ | ⟨_, ino, bno, c, hblock⟩
  · exact absurd hneg (lt_irrefl 0)
  obtain ⟨w₁, new, hsbi⟩ := c.new
  obtain ⟨d', hd', hsame⟩ := c.up
  have hnr : w'.sbi.nrInodes = w.sbi.nrInodes := by
    rw [hsbi]
    exact new.layout.nrInodes
  obtain ⟨f, rfl, hname, hpacked⟩ := Packed.enter packed room nonempty nonzero new.pos
    (Nat.lt_of_lt_of_le new.lt range)
  rw [← hblock, ← show d'.indexBlock = d.indexBlock from hsame.index] at hpacked
  have hmiss : es.find? (fun g => nameOf g = name) = none := by
    have := lookupLoop_of_absent hd absent
    rw [lookup_eq packed accepted nonzero] at this
    exact Option.map_eq_none_iff.mp this
  have hentered : Entered w w' dir name f := by
    refine ⟨?_, ?_, hnr, hname, accepted, d, d', es, hd, hd', packed, hpacked, hmiss⟩
    · rintro ⟨_, _, hbit⟩
      rw [new.was_free] at hbit
      cases hbit
    · refine ⟨new.pos, by rw [hnr]; exact new.lt, ?_⟩
      rw [hsbi, new.inodes, clearBit_self]
  constructor
  · intro h
    obtain ⟨ino', _, _, hfound⟩ := h.found
    exact hentered.short nonzero ⟨ino', hfound ⟨0, 0, true⟩ calmIo rfl (fun _ => rfl)⟩
  · exact hentered.resolves nonzero

/-- A volume of a hundred blocks with an empty root directory. -/
def emptyDirWorld : World where
  sbi := ⟨100, 56, 2, 1, 1, 54, 90, fun i => decide (2 ≤ i), fun b => decide (10 ≤ b ∧ b < 100)⟩
  disk := fun _ _ => 0
  icache := fun i => if i = 1 then
    some ⟨sIfdir, 0, 0, 4096, ⟨0, 0⟩, ⟨0, 0⟩, ⟨0, 0⟩, 1, 2, 6⟩ else none

/-- The same volume, with a file in the directory. -/
def usedDirWorld : World :=
  { emptyDirWorld with
    sbi := { emptyDirWorld.sbi with nrFreeInodes := 53, ifreeBitmap := fun i => decide (3 ≤ i) }
    disk := fun b => if b = 6 then Lifecycle.enter (fun _ => 0) 2 (List.replicate 26 97 ++ [98])
      else fun _ => 0 }

/-- A name of 27 bytes is found beside one that differs from it in the last byte. -/
theorem created_resolves_beside : ∃ w', ouichefsCreate usedDirWorld ⟨0, 0, true⟩ calmIo 1
      (List.replicate 27 97) sIfreg = some (w', 0) ∧
    Resolves usedDirWorld w' 1 (List.replicate 27 97) := by
  have hret : (ouichefsCreate usedDirWorld ⟨0, 0, true⟩ calmIo 1 (List.replicate 27 97) sIfreg).map
      Prod.snd = some 0 := by decide +kernel
  obtain ⟨⟨w', _⟩, hrun, rfl⟩ := Option.map_eq_some_iff.mp hret
  have hempty : Packed (fun _ => 0) [] := packed_nil fun _ _ => rfl
  obtain ⟨f, _, _, hpacked⟩ : ∃ f, f.inode = 2 ∧
      nameOf f = (List.replicate 26 97 ++ [98]).take (filenameLen - 1) ∧
      Packed (usedDirWorld.disk 6) [f] :=
    Packed.enter hempty (by decide) (by decide) (by decide) (by decide) (by decide)
  refine ⟨w', hrun, ?_⟩
  exact (created_resolves_iff usedDirWorld w' ⟨0, 0, true⟩ ⟨0, 0, true⟩ calmIo calmIo 1 sIfreg _ [f]
    (List.replicate 27 97) ⟨live_eq_some.mpr ⟨⟨by decide, by decide, by decide⟩, rfl⟩, by decide⟩
    (by decide) (by decide) hpacked (by simp [maxSubfiles]) (by decide) (by decide) (by decide) rfl
    hrun).mpr (by decide)

/-- A name of 28 bytes is accepted and cannot be found afterwards. -/
theorem created_not_found : ∃ w', lookupResult emptyDirWorld ⟨0, 0, true⟩ calmIo 1
      (List.replicate 28 97) = some (.ok none) ∧
    ouichefsCreate emptyDirWorld ⟨0, 0, true⟩ calmIo 1 (List.replicate 28 97) sIfreg =
      some (w', 0) ∧ ¬ Resolves emptyDirWorld w' 1 (List.replicate 28 97) := by
  have hret : (ouichefsCreate emptyDirWorld ⟨0, 0, true⟩ calmIo 1 (List.replicate 28 97) sIfreg).map
      Prod.snd = some 0 := by decide +kernel
  have hlook : ((ouichefsCreate emptyDirWorld ⟨0, 0, true⟩ calmIo 1 (List.replicate 28 97) sIfreg).bind
      fun r => (ouichefsLookup r.1 ⟨0, 0, true⟩ calmIo 1 (List.replicate 28 97)).map fun l =>
        l.2.toOption) = some (some none) := by decide +kernel
  obtain ⟨⟨w', _⟩, hrun, rfl⟩ := Option.map_eq_some_iff.mp hret
  refine ⟨w', rfl, hrun, ?_⟩
  intro h
  obtain ⟨ino, _, _, hfound⟩ := h.found
  obtain ⟨r, hr, hino⟩ := Option.map_eq_some_iff.mp (hfound ⟨0, 0, true⟩ calmIo rfl (fun _ => rfl))
  rw [hrun, Option.bind_some, hr, Option.map_some, hino] at hlook
  cases hlook

end Naming
