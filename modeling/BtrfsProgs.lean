import BtrfsProgs.Volumes.ParityBytes
import BtrfsProgs.Volumes.BlockIo
import BtrfsProgs.Volumes.ChunkTree
import BtrfsProgs.ExtentRefs.InlineEdit
import BtrfsProgs.ExtentRefs.KeyedRefs
import BtrfsProgs.Check.WalkRuns
import BtrfsProgs.ExtentTree.CrashRuns
import BtrfsProgs.ExtentTree.Accounting
import BtrfsProgs.ExtentTree.CacheGroup
import BtrfsProgs.ExtentTree.FindFree
import BtrfsProgs.ExtentTree.MakeGroups
import BtrfsProgs.ExtentTree.UpdateGroup
import BtrfsProgs.Image.DumpRuns
import BtrfsProgs.Image.Private
import BtrfsProgs.Recover.Recovered
import BtrfsProgs.DiskIo.Crash
import BtrfsProgs.Recover.RemoveExtents
import BtrfsProgs.Recover.OrphanChunks
import BtrfsProgs.Scrub.Resume
import BtrfsProgs.Receive.Safe
import BtrfsProgs.FreeSpace.Merged
import BtrfsProgs.Restore.AllLeaves
import BtrfsProgs.Check.FreeExtentHook
import BtrfsProgs.Check.MostRight
import BtrfsProgs.Check.Duplicates
import BtrfsProgs.Check.ChunkVerdict
import BtrfsProgs.Check.DeleteExtents
import BtrfsProgs.ChunkAlloc.FreeDevExtent
import BtrfsProgs.DiskIo.MirrorRead
import BtrfsProgs.Check.RootReach
import BtrfsProgs.CsumCheck.CountCsumRange
import BtrfsProgs.CsumCheck.CheckCsums
import BtrfsProgs.Leaves.Check
import BtrfsProgs.Convert.Csums
import BtrfsProgs.Convert.AllocRuns
import BtrfsProgs.Convert.ExtAttrBounds
import BtrfsProgs.Scrub.StatusRoundTrip
import BtrfsProgs.SubvolList.SearchPages
import BtrfsProgs.Restore.Lzo
import BtrfsProgs.Restore.SearchDir
import BtrfsProgs.Utils.ParseSize
import BtrfsProgs.Send.MountRoot
import BtrfsProgs.Send.SubvolidResolve
import BtrfsProgs.SubvolList.SortString
import BtrfsProgs.Balance.ParseFilters
import BtrfsProgs.Scrub.WriteProgress
import BtrfsProgs.Mkfs.AddXattr
import BtrfsProgs.SubvolList.UpdatedFiles
import BtrfsProgs.Reinit.BalanceItems
import BtrfsProgs.Mkfs.AddFileItems
import BtrfsProgs.Scrub.AnyDivision
import BtrfsProgs.Ctree.BinSearch
import BtrfsProgs.Ctree.FreeObjectid
import BtrfsProgs.Ctree.LastRoot
import BtrfsProgs.Qgroup.Inherit
import BtrfsProgs.Qgroup.AllParents
import BtrfsProgs.Qgroup.Table
import BtrfsProgs.DiskIo.RecoverSupers
import BtrfsProgs.FindRoot.Complete
