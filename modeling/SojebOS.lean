import SojebOS.WhileLoop
import SojebOS.LinkedChain
import SojebOS.LabelledRuns
import SojebOS.NamedListings
import SojebOS.DevicePrograms
import SojebOS.MachineWord
import SojebOS.ByteMemory
import SojebOS.ProtectedMode
import SojebOS.FirstFit
import SojebOS.FirstFitUsed
import SojebOS.FirstFitRuns
import SojebOS.KernelHeap
import SojebOS.KernelHeapRefinement
import SojebOS.KernelHeapOutcomes
import SojebOS.KernelHeapInvariant
import SojebOS.KernelHeapFreeing
import SojebOS.KernelHeapFrame
import SojebOS.KernelHeapSizes
import SojebOS.KernelHeapRuns
import SojebOS.KernelHeapReallocation
import SojebOS.KernelHeapClients
import SojebOS.Fat32Disk
import SojebOS.AtaDriver
import SojebOS.Fat32Directory
import SojebOS.Fat32Files
import SojebOS.Fat32Tree
import SojebOS.Fat32Layout
import SojebOS.Fat32Volume
import SojebOS.Fat32LinkArray
import SojebOS.Fat32Entries
import SojebOS.Fat32Allocation
import SojebOS.Fat32Growth
import SojebOS.Fat32RoundTrip
import SojebOS.Fat32VfsRead
import SojebOS.Fat32ReadSlices
import SojebOS.Fat32FileReaders
import SojebOS.Fat32Freeing
import SojebOS.WalkCycles
import SojebOS.Fat32DirectoryWalks
import SojebOS.Fat32SearchTargets
import SojebOS.Fat32TreeGrowth
import SojebOS.Fat32Paths
import SojebOS.Fat32Removal
import SojebOS.Fat32TreeInvariant
import SojebOS.Fat32TreeRuns
import SojebOS.Fat32Links
import SojebOS.Fat32UniqueNames
import SojebOS.Fat32PathText
import SojebOS.Fat32PathComposition
import SojebOS.Fat32Rmdir
import SojebOS.Fat32Undo
import SojebOS.Fat32EnterLeave
import SojebOS.Fat32DirectoryRoom
import SojebOS.Fat32Listing
import SojebOS.Fat32ListingRuns
import SojebOS.Fat32FileSizes
import SojebOS.Fat32SectorWrites
import SojebOS.Fat32VolumeBounds
import SojebOS.Fat32VolumeWrites
import SojebOS.Fat32Pwd
import SojebOS.Fat32NameSearch
import SojebOS.Fat32ShortNames
import SojebOS.BoundedTable
import SojebOS.DecimalNumerals
import SojebOS.HashTable
import SojebOS.CStrings
import SojebOS.DecimalPrinters
import SojebOS.IpText
import SojebOS.Calculator
import SojebOS.HashTableContents
import SojebOS.HashTableMemory
import SojebOS.HashTableChains
import SojebOS.HashTableOperations
import SojebOS.HashTableRuns
import SojebOS.HashTableBuckets
import SojebOS.HashTableExhaustion
import SojebOS.ScrollingPage
import SojebOS.ConsoleScreen
import SojebOS.ConsoleWindow
import SojebOS.ConsoleColours
import SojebOS.ConsolePrintf
import SojebOS.FormatScan
import SojebOS.PrintfArguments
import SojebOS.LineEditing
import SojebOS.ShellTokens
import SojebOS.NetworkStack
import SojebOS.NetworkFrames
import SojebOS.Rtl8139
import SojebOS.Ipv4Delivery
import SojebOS.NetworkRoundTrip
import SojebOS.ArpBindings
import SojebOS.ArpCache
import SojebOS.OnesComplement
import SojebOS.NetworkChecksum
import SojebOS.Ipv4Validity
import SojebOS.EchoReplies
import SojebOS.PingExchange
import SojebOS.TransmitPadding
import SojebOS.ReceiveRing
import SojebOS.GrowableVector
import SojebOS.VectorRoom
import SojebOS.VectorRefinement
import SojebOS.CommandTable
import SojebOS.ShellSessions
import SojebOS.PageFrames
import SojebOS.AddressSpace
import SojebOS.Paging
import SojebOS.TranslatedPaging
import SojebOS.PagingWalks
import SojebOS.PagingRefinement
import SojebOS.PagingInit
import SojebOS.UserIsolation
import SojebOS.FrameAllocator
import SojebOS.PageMapping
import SojebOS.KernelMapping
import SojebOS.FrameSupply
import SojebOS.DirectAccess
import SojebOS.DirectRounds
import SojebOS.ElfLoader
import SojebOS.ElfHeaders
import SojebOS.NodeFiles
import SojebOS.SegmentOverlay
import SojebOS.UserRanges
import SojebOS.UserMemory
import SojebOS.Segmentation
import SojebOS.ElfImage
import SojebOS.ElfStores
import SojebOS.ElfTruncation
import SojebOS.VfsNodes
import SojebOS.ExecRejection
import SojebOS.FrameConservation
import SojebOS.KernelMemory
