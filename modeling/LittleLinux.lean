import LittleLinux.Lib.ChainTable
import LittleLinux.Lib.ByteMemory
import LittleLinux.Lib.Run
import LittleLinux.Lib.Simulation
import LittleLinux.Lib.ChainNodes
import LittleLinux.Lib.Owner
import LittleLinux.Lib.Ring
import LittleLinux.Lib.Loop
import LittleLinux.Lib.Tiling
import LittleLinux.Lib.FirstFit
import LittleLinux.Libc.Integers
import LittleLinux.Libc.CString
import LittleLinux.Kernel.Memory
import LittleLinux.Kernel.Malloc
import LittleLinux.Kernel.MallocTiling
import LittleLinux.Ramfs.Types
import LittleLinux.Ramfs.NamedTable
import LittleLinux.Ramfs.Hash
import LittleLinux.Ramfs.HashFile
import LittleLinux.Dfs.Store
import LittleLinux.Dfs.Layout
import LittleLinux.Dfs.Blocks
import LittleLinux.Dfs.BlockSafety
import LittleLinux.Ramfs.State
import LittleLinux.Ramfs.Path
import LittleLinux.Dfs.Folder
import LittleLinux.Dfs.Sync
import LittleLinux.Ramfs.Ops
import LittleLinux.Dfs.Mount
import LittleLinux.Ramfs.Directory
import LittleLinux.Ramfs.DirectoryCalls
import LittleLinux.Drivers.Keyboard
import LittleLinux.Drivers.Tty
import LittleLinux.Drivers.Ahci
import LittleLinux.Drivers.DriveTable
import LittleLinux.Drivers.Pci
import LittleLinux.Drivers.Partition
import LittleLinux.Drivers.PartitionTable
import LittleLinux.Dfs.Frame
import LittleLinux.Dfs.Overlay
import LittleLinux.Dfs.Quiet
import LittleLinux.Dfs.Calls
import LittleLinux.Dfs.LoadRecord
import LittleLinux.Dfs.RoundTrip
import LittleLinux.Dfs.Loaders
import LittleLinux.Dfs.FailedLoad
import LittleLinux.Dfs.Tree
import LittleLinux.Dfs.TreeOps
import LittleLinux.Dfs.TreeMount
import LittleLinux.Dfs.Allocated
import LittleLinux.Dfs.TableLaws
import LittleLinux.Dfs.Removal
import LittleLinux.Dfs.Dangling
import LittleLinux.Dfs.MountTable
import LittleLinux.Dfs.SyncIsolation
import LittleLinux.Dfs.Dirty
import LittleLinux.Dfs.DirtyOps
import LittleLinux.Ramfs.Commands
import LittleLinux.Ramfs.RamCalls
import LittleLinux.Ramfs.RamTree
import LittleLinux.Ramfs.AbsolutePath
import LittleLinux.Lib.Ledger
import LittleLinux.Ramfs.FailedCalls
import LittleLinux.Dfs.LazyLoad
import LittleLinux.Dfs.BlockExact
import LittleLinux.Dfs.FormatLayout
import LittleLinux.Dfs.Addresses
import LittleLinux.Dfs.SyncFaults
import LittleLinux.Dfs.FormatForgets
import LittleLinux.Dfs.NewFolders
import LittleLinux.Dfs.Accounts
import LittleLinux.Dfs.LeakedBlocks
import LittleLinux.Dfs.FileTags
import LittleLinux.Dfs.TagRuns
import LittleLinux.Kernel.MallocRefinement
import LittleLinux.Kernel.MallocSize
import LittleLinux.Dfs.RecordBounds
import LittleLinux.Dfs.FreeTree
import LittleLinux.Ramfs.MkdirParents
import LittleLinux.Ramfs.PathNames
import LittleLinux.Drivers.PartitionListing
import LittleLinux.Drivers.DriveSizes
import LittleLinux.Drivers.AtaCommand
import LittleLinux.Drivers.ScanCodes
import LittleLinux.Libc.StringMemory
import LittleLinux.Shell.LineEditor
import LittleLinux.Lib.Words
import LittleLinux.Shell.CommandLine
import LittleLinux.Shell.EnvVars
import LittleLinux.Libc.NumeralParsing
import LittleLinux.Dfs.Device
import LittleLinux.Libc.ByteRoutines
import LittleLinux.Libc.Printf
import LittleLinux.Libc.PrintfText
import LittleLinux.Libc.PrintfBounds
import LittleLinux.Dfs.Grants
import LittleLinux.Dfs.Grown
import LittleLinux.Dfs.Remount
import LittleLinux.Dfs.Durable
import LittleLinux.Dfs.DriverStack
import LittleLinux.Lib.DoublyLinked
import LittleLinux.Kernel.UtHash
import LittleLinux.Kernel.UtHashChains
import LittleLinux.Lib.Assignments
import LittleLinux.Shell.NameTables
import LittleLinux.Ramfs.FileTreeCalls
import LittleLinux.Lib.StackMachine
import LittleLinux.Lib.Interruption
import LittleLinux.Kernel.InterruptStub
import LittleLinux.Kernel.Pic
import LittleLinux.Drivers.Typewriter
import LittleLinux.Drivers.KeyHistory
import LittleLinux.Shell.Session
import LittleLinux.Ramfs.TreeCommands
import LittleLinux.Dfs.DiskCommands
import LittleLinux.Shell.FileSession
import LittleLinux.Dfs.LiveUse
import LittleLinux.Kernel.HeapCalls
import LittleLinux.Ramfs.AllocatorCalls
import LittleLinux.Ramfs.TreeInHeap
