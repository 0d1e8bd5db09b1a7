import OuicheFs.Lib.CInt
import OuicheFs.Lib.ByteBuffer
import OuicheFs.Lib.Bits
import OuicheFs.Lib.Loop
import OuicheFs.Lib.Ledger
import OuicheFs.Lib.Hierarchy
import OuicheFs.Lib.FileTree
import OuicheFs.Lib.Updates
import OuicheFs.IndexEntry
import OuicheFs.EntryPair
import OuicheFs.Allocator
import OuicheFs.FreeCount
import OuicheFs.FileContext
import OuicheFs.File
import OuicheFs.Write
import OuicheFs.Defrag
import OuicheFs.Read
import OuicheFs.Layout
import OuicheFs.Reserve
import OuicheFs.Pour
import OuicheFs.Search
import OuicheFs.Insert
import OuicheFs.GapFill
import OuicheFs.LightWrite
import OuicheFs.Completion
import OuicheFs.SlotRange
import OuicheFs.Overlap
import OuicheFs.Compaction
import OuicheFs.Copies
import OuicheFs.Stability
import OuicheFs.FileRun
import OuicheFs.Appending
import OuicheFs.Streaming
import OuicheFs.Delivery
import OuicheFs.CachedRead
import OuicheFs.Truncation
import OuicheFs.WriteEnd
import OuicheFs.Release
import OuicheFs.PlainWrite
import OuicheFs.Overwrite
import OuicheFs.Aborted
import OuicheFs.Exposure
import OuicheFs.EndOfFile
import OuicheFs.EmptyWrite
import OuicheFs.Mkfs
import OuicheFs.BitmapBuffer
import OuicheFs.Inode
import OuicheFs.Dir
import OuicheFs.Directory
import OuicheFs.Rename
import OuicheFs.Listing
import OuicheFs.Super
import OuicheFs.InodeStore
import OuicheFs.ImageLayout
import OuicheFs.Sync
import OuicheFs.Addressing
import OuicheFs.Ownership
import OuicheFs.Lifecycle
import OuicheFs.Rollback
import OuicheFs.VolumeRun
import OuicheFs.DirTree
import OuicheFs.TreeRun
import OuicheFs.Naming
import OuicheFs.InodeCount
import OuicheFs.Isolation
import OuicheFs.Orphan
import OuicheFs.Sharing
import OuicheFs.GapRun
import OuicheFs.WholeVolume
import OuicheFs.Remount
import OuicheFs.FileSystem
import OuicheFs.WriteBack
import OuicheFs.Accounting
import OuicheFs.Progress
import OuicheFs.Resync
import OuicheFs.Faults
import OuicheFs.PageCache
import OuicheFs.PagedFile
import OuicheFs.Ioctl
import OuicheFs.CompactRead
