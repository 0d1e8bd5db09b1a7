import OuicheFs.Lifecycle
import OuicheFs.Rename

/-!
# A failing `ouichefs_create`

A call that fails gives back the inode number and the block it took, in the
helper or in the caller, whichever step failed. Taking a number and giving it
back is the identity on the superblock, as long as the number 0 is in use.
-/
namespace Rollback

open CInt Bits Allocator FileContext ByteBuffer OuicheInode Lifecycle

/-! ## The unwinding paths -/

/-- The numbers 0 are in use, and the counters have 32 bits. -/
structure Reserved (sbi : SbInfo) : Prop where
  inode : sbi.ifreeBitmap 0 = false
  block : sbi.bfreeBitmap 0 = false
  inodeCount : sbi.nrFreeInodes < 4294967296
  blockCount : sbi.nrFreeBlocks < 4294967296

/-- Both bitmaps and counters, all blocks and the inodes in use are as before. -/
structure Unspent (w w' : World) : Prop where
  sbi : w'.sbi = w.sbi
  disk : w'.disk = w.disk
  icache : ∀ i, w.sbi.ifreeBitmap i = false → w'.icache i = w.icache i

theorem Unspent.refl (w : World) : Unspent w w := ⟨rfl, rfl, fun _ _ => rfl⟩

/-- A new inode whose number and block can be given back. -/
structure Revocable (w w' : World) (ino : Nat) : Prop where
  node : ∃ node, w'.icache ino = some node ∧
    putInode (putBlock w'.sbi node.indexBlock) ino = w.sbi
  disk : w'.disk = w.disk
  icache : ∀ i, w.sbi.ifreeBitmap i = false → w'.icache i = w.icache i

section

variable {w w' : World} {who : Caller} {io : Io} {d : Inode} {mode : Nat}

/-- `ouichefs_new_inode` takes nothing, or what it takes can be given back. -/
theorem ouichefsNewInode_unspent (res : Reserved w.sbi) :
    (∀ ret, (ouichefsNewInode w who io d mode).2 = .error ret →
      Unspent w (ouichefsNewInode w who io d mode).1) ∧
    ∀ ino, (ouichefsNewInode w who io d mode).2 = .ok ino →
      Revocable w (ouichefsNewInode w who io d mode).1 ino := by
  unfold ouichefsNewInode
  split
  · exact ⟨fun _ _ => Unspent.refl w, by rintro ino ⟨⟩⟩
  split
  · exact ⟨fun _ _ => Unspent.refl w, by rintro ino ⟨⟩⟩
  simp only
  split
  · rename_i hnone
    refine ⟨fun _ _ => ⟨getFreeInode_fails res.inode hnone, rfl, fun _ _ => rfl⟩, by rintro ino ⟨⟩⟩
  rename_i hsome
  have hback := putInode_getFreeInode res.inodeCount hsome
  obtain ⟨hbits, hcount⟩ := getFreeInode_blocks w.sbi
  have hfree : w.sbi.ifreeBitmap (getFreeInode w.sbi).1 = true := by
    rcases (getFreeInode_spec w.sbi).2 with ⟨hz, _⟩ | ⟨_, _, hfree, _⟩
    · exact absurd hz hsome
    · exact hfree
  have hother : ∀ i, w.sbi.ifreeBitmap i = false → i ≠ (getFreeInode w.sbi).1 := by
    rintro i hi rfl
    rw [hfree] at hi
    cases hi
  rcases ouichefsIget_spec { w with sbi := (getFreeInode w.sbi).2 } who (io.bread 1)
    (getFreeInode w.sbi).1 with ⟨ret, higet, _⟩ | ⟨node, higet⟩
  · rw [higet]
    exact ⟨fun _ _ => ⟨hback, rfl, fun _ _ => rfl⟩, by rintro ino ⟨⟩⟩
  rw [higet]
  simp only [World.cache]
  split
  · rename_i hnoblock
    have hsame := getFreeBlock_fails (by rw [hbits]; exact res.block) hnoblock
    refine ⟨fun _ _ => ⟨?_, rfl, fun i hi => if_neg (hother i hi)⟩, by rintro ino ⟨⟩⟩
    simp only [hsame, hback]
  · rename_i hblock
    have hgive := putBlock_getFreeBlock (by rw [hcount]; exact res.blockCount) hblock
    refine ⟨by rintro ret ⟨⟩, ?_⟩
    rintro ino ⟨⟩
    refine ⟨⟨_, modify_self _ (if_pos rfl), ?_⟩, rfl, ?_⟩
    · rw [(initInode_initial who d mode _ io.now node).index]
      change putInode (putBlock (getFreeBlock (getFreeInode w.sbi).2).2 _) _ = _
      rw [hgive, hback]
    · intro i hi
      rw [modify_of_ne _ _ (hother i hi)]
      exact if_neg (hother i hi)

theorem ouichefsCreate_unspent {dir : Nat} {name : List Byte} {r : World × Int}
    (res : Reserved w.sbi) (run : ouichefsCreate w who io dir name mode = some r) (neg : r.2 < 0) :
    Unspent w r.1 := by
  obtain ⟨d, _, hexits⟩ := ouichefsCreate_exits run
  obtain ⟨hfails, hmade⟩ := ouichefsNewInode_unspent res
  rcases hexits with ⟨hw, _⟩ | ⟨ret, hq, _⟩ | ⟨w₁, ino, node, hq, hnode, hend⟩
  · rw [hw]
    exact Unspent.refl w
  · rw [hq] at hfails
    exact hfails ret rfl
  rw [hq] at hmade
  have hrev := hmade ino rfl
  rcases hend with ⟨_, hr⟩ | ⟨_, hr⟩
  · obtain ⟨node', hnode', hback⟩ := hrev.node
    obtain rfl : node = node' := Option.some.inj (hnode.symm.trans hnode')
    rw [hr]
    exact ⟨hback, hrev.disk, hrev.icache⟩
  · rw [hr] at neg
    cases neg

/-- A call of `ouichefs_create` or `ouichefs_mkdir` that fails takes no inode and no
block and leaves the parent alone. The parent is an inode in use. -/
theorem failing_create_unspent {dir : Nat} {name : List Byte} {r : World × Int}
    (res : Reserved w.sbi) (parent : w.sbi.ifreeBitmap dir = false)
    (run : ouichefsCreate w who io dir name mode = some r ∨
      ouichefsMkdir w who io dir name mode = some r)
    (neg : r.2 < 0) : r.1.sbi = w.sbi ∧ r.1.icache dir = w.icache dir ∧ r.1.disk = w.disk := by
  obtain ⟨mode, run⟩ : ∃ mode, ouichefsCreate w who io dir name mode = some r := by
    rcases run with hcreate | hmkdir
    · exact ⟨_, hcreate⟩
    · exact ⟨_, hmkdir⟩
  have hunspent : Unspent w r.1 := ouichefsCreate_unspent res run neg
  exact ⟨hunspent.sbi, hunspent.icache dir parent, hunspent.disk⟩

end

/-- The index block of the new file cannot be read: inode 5 and block 37 go back. -/
theorem failing_create_unspent_unread :
    ∃ r, ouichefsCreate (Rename.twoDirs 2) ⟨0, 0, true⟩ { calmIo with bread := fun n => decide (n < 2) }
        1 [99] 0o100644 = some r ∧ r.2 = -errIo ∧ r.1.sbi = (Rename.twoDirs 2).sbi ∧
      r.1.icache 1 = (Rename.twoDirs 2).icache 1 ∧ r.1.disk = (Rename.twoDirs 2).disk := by
  have hret : (ouichefsCreate (Rename.twoDirs 2) ⟨0, 0, true⟩
      { calmIo with bread := fun n => decide (n < 2) } 1 [99] 0o100644).map Prod.snd =
      some (-errIo) := by
    decide +kernel
  obtain ⟨r, hrun, hio⟩ := Option.map_eq_some_iff.mp hret
  exact ⟨r, hrun, hio, failing_create_unspent ⟨rfl, rfl, by decide, by decide⟩ rfl (Or.inl hrun)
    (by rw [hio]; decide)⟩

end Rollback
