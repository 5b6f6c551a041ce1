import Aufs.Inode
import Aufs.Refreshed
import Aufs.OpDel
import Aufs.CopyUp
import Aufs.Export
import Aufs.CopyEnds
import Aufs.XinoFiles
import Aufs.Getdents
import Aufs.OpenFiles
import Aufs.XinoShare
import Aufs.Reinit
import Aufs.Setattr
import Aufs.DirHandle
import Aufs.RegHandle
import Aufs.Fresh
import Aufs.RoundTrip
import Aufs.CpupDirs
import Aufs.FailedBuild
import Aufs.SeekVdir
import Aufs.LookupFails
import Aufs.DecodePath
import Aufs.DecodeFh
import Aufs.OptSlots
import Aufs.FileLock
import Aufs.PlinkRetry
import Aufs.WhFileRefs
import Aufs.Dcsub
import Aufs.DcsubPages
import Aufs.Nlink
import Aufs.XinoNew
import Aufs.Lib.Ring
import Aufs.PlinkList
import Aufs.WhTmp
import Aufs.Lib.Chunks
import Aufs.DlgtIo
import Aufs.Lib.Streams
import Aufs.EmptyDir
import Aufs.WrDir
import Aufs.WkqBusy
import Aufs.Plink
import Aufs.Lib.Pieces
import Aufs.Sysaufs
import Aufs.Lib.Records
import Aufs.Lib.Kheap
import Aufs.DeblkBytes
import Aufs.VdirMem
import Aufs.VdirCopy
import Aufs.VdirRefine
import Aufs.Reval
import Aufs.RoFiles
import Aufs.ListedIno
import Aufs.Requests
import Aufs.CopiedFile
import Aufs.OpRen
import Aufs.Renamed
import Aufs.FileView
import Aufs.RenamedView
import Aufs.Commands
