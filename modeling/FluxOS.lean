import FluxOS.BuddyPlacement
import FluxOS.BuddyFirstFit
import FluxOS.PagingSoundness
import FluxOS.PageRemoval
import FluxOS.PageSharing
import FluxOS.MemoryContext
import FluxOS.UserMemoryOps
import FluxOS.FSUAPI
import FluxOS.Task
import FluxOS.AddressSpace
import FluxOS.ForkedProcess
import FluxOS.RemovalEffect
import FluxOS.DescriptorRelease
import FluxOS.Termination
import FluxOS.MemoryUAPI
import FluxOS.Unmapping
import FluxOS.Reservation
import FluxOS.DisjointMappings
import FluxOS.DemandPaging
import FluxOS.ElfLoader
import FluxOS.FreshPlacement
import FluxOS.SegmentLoading
import FluxOS.SegmentContents
import FluxOS.Totals
import FluxOS.LinkedPointers
import FluxOS.ProcessTable
import FluxOS.ProcessHolders
import FluxOS.ProcessLifetimes
import FluxOS.ProcessEnumeration
import FluxOS.ResourceRelease
import FluxOS.SeparatedNames
import FluxOS.VFS
import FluxOS.PathMeaning
import FluxOS.LinkMeaning
import FluxOS.ResolutionBalance
import FluxOS.FileCreation
import FluxOS.ParentAndName
import FluxOS.QHash
import FluxOS.VNodeManager
import FluxOS.VNodeTable
import FluxOS.VNodeUse
import FluxOS.VNodeHolders
import FluxOS.VNodeReferences
import FluxOS.Buffers
import FluxOS.TmpFS
import FluxOS.TmpFile
import FluxOS.TmpNames
import FluxOS.BlockDevice
import FluxOS.Ext2
import FluxOS.InodeTable
import FluxOS.Ext2Read
import FluxOS.BlockReading
import FluxOS.FileReading
import FluxOS.IndirectTotals
import FluxOS.ReadingLimits
import FluxOS.RingBuffers
import FluxOS.PipeRuns
import FluxOS.QHashCalls
import FluxOS.QHashMap
import FluxOS.QHashIndices
import FluxOS.Pipe
import FluxOS.QHashCopies
import FluxOS.QList
import FluxOS.QListSequence
import FluxOS.QLinkedList
import FluxOS.QLinkedListSequence
import FluxOS.QLinkedListRuns
import FluxOS.HoledArray
import FluxOS.DescriptorTable
import FluxOS.DescriptorRuns
import FluxOS.MappingCycles
import FluxOS.DataSegment
import FluxOS.DataSegmentRuns
import FluxOS.UserStrings
import FluxOS.ArgumentCopying
import FluxOS.ArgumentTables
import FluxOS.ExecveArguments
import FluxOS.PhysicalMMRuns
import FluxOS.IP
import FluxOS.InternetChecksum
import FluxOS.FrameContainment
import FluxOS.UDPSocket
import FluxOS.AnswerChains
import FluxOS.LineInput
import FluxOS.PacketStorm
import FluxOS.SocketWakeup
import FluxOS.Polling
import FluxOS.RecordListing
import FluxOS.DirectoryListing
import FluxOS.DirectoryWalks
import FluxOS.Video
import FluxOS.VtConsole
import FluxOS.Partitions
import FluxOS.DirectoryEntries
import FluxOS.DirectoryLookup
import FluxOS.DirectoryNames
import FluxOS.Cstdlib
import FluxOS.DirectoryPaths
import FluxOS.EntryTypes
import FluxOS.MountEffect
import FluxOS.MountRuns
import FluxOS.BuddyRelease
import FluxOS.Seeking
import FluxOS.ProcessStack
import FluxOS.Protection
import FluxOS.RegionFlags
import FluxOS.PhysicalMapping
import FluxOS.Exhaustion
import FluxOS.UserString
import FluxOS.DataStore
import FluxOS.AddressingAreas
import FluxOS.DirectoryRecords
import FluxOS.Ext2Update
import FluxOS.Unlinking
import FluxOS.Renaming
import FluxOS.PipeCopies
import FluxOS.ResolutionRuns
import FluxOS.QHashSizes
import FluxOS.LinkedCells
import FluxOS.QHashNodes
import FluxOS.QHashIteration
import FluxOS.GenericBlockDevice
import FluxOS.ATA
import FluxOS.PartitionScanning
import FluxOS.PartitionReads
import FluxOS.GPTPartitions
import FluxOS.QListInsertion
import FluxOS.AddressText
import FluxOS.ConsoleDevice
import FluxOS.FBConsole
import FluxOS.Forwarding
import FluxOS.PartialWalks
import FluxOS.Scheduler
import FluxOS.SystemTimer
import FluxOS.SleepDuration
import FluxOS.ProcFSNodes
import FluxOS.Passwd
import FluxOS.DataStoreSafety
import FluxOS.Cstring
import FluxOS.BoundedStrings
import FluxOS.NumberText
import FluxOS.LibcNumbers
import FluxOS.FreePageCount
import FluxOS.CopyOnWrite
import FluxOS.ForkIsolation
import FluxOS.ARP
import FluxOS.Getopt
import FluxOS.Calendar
import FluxOS.Gmtime
import FluxOS.Scanner
import FluxOS.FluxSH
import FluxOS.ShellScripts
import FluxOS.ShellRuns
import FluxOS.DirectoryStream
import FluxOS.DeviceRegistry
import FluxOS.UDPExchange
import FluxOS.FormattedOutput
import FluxOS.FileCalls
import FluxOS.Cat
import FluxOS.WriteBackCache
import FluxOS.InodeCache
import FluxOS.LibcMemmove
