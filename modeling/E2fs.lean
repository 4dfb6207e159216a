import E2fs.Bitmap.Range
import E2fs.Bitmap.RbResize
import E2fs.Bitmap.Compare
import E2fs.Bitmap.UsedClusters
import E2fs.FastCommit.Replay
import E2fs.Journal.Termination
import E2fs.Alloc.GetFreeBlocks
import E2fs.Alloc.Shadow
import E2fs.FastCommit.Applied
import E2fs.ExtAttr.WriteBack
import E2fs.ExtAttr.Survive
import E2fs.Quota.Large
import E2fs.Sparse.Close
import E2fs.Sparse.ImportBuf
import E2fs.Unix.Bounce
import E2fs.Unix.Plain
import E2fs.LinkCount.Agree
import E2fs.Undo.Restore
import E2fs.FileIo.Shared
import E2fs.BaseFs.Exact
import E2fs.Simg.ExtToSparse
import E2fs.Pass3.Connected
import E2fs.Iterate.Exact
import E2fs.ExtentTree.Count
import E2fs.Uuid
import E2fs.Region
import E2fs.Resize.Extent
import E2fs.Resize.Itables
import E2fs.FastCommit.Sorting
