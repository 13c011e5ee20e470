import MemoryMappingModule.WordArithmetic
import MemoryMappingModule.FirstFit
import MemoryMappingModule.ExtentTranslation
import MemoryMappingModule.MappingLayout
import MemoryMappingModule.AddressTranslation
import MemoryMappingModule.PageTableFormat
import MemoryMappingModule.PageTableLookup
import MemoryMappingModule.PageTableMapping
import MemoryMappingModule.RegionMapping
import MemoryMappingModule.MappingSetup
import MemoryMappingModule.MappingProgress
import MemoryMappingModule.PageMaps
import MemoryMappingModule.AreaScan
import MemoryMappingModule.AreaSizeGuarantees
import MemoryMappingModule.HeapAllocation
import MemoryMappingModule.BlockPools
import MemoryMappingModule.StepLoop
import MemoryMappingModule.ByteMemory
import MemoryMappingModule.LinkedExtents
import MemoryMappingModule.HeapCheckGuarantees
import MemoryMappingModule.HeapPairing
import MemoryMappingModule.FunctionReplacements
import MemoryMappingModule.TranslationDump
import MemoryMappingModule.DumpGuarantees
import MemoryMappingModule.TestValues
import MemoryMappingModule.TestReports
import MemoryMappingModule.MemoryTest
import MemoryMappingModule.FreeRegionSearch
import MemoryMappingModule.ThreadObjects
import MemoryMappingModule.BorrowedWindow
import MemoryMappingModule.PowerPc
import MemoryMappingModule.SetupCode
import MemoryMappingModule.CoreSetup
import MemoryMappingModule.Interleaving
import MemoryMappingModule.CoreThreads
import MemoryMappingModule.MemoryManagement
import MemoryMappingModule.AddressSpaces
import MemoryMappingModule.Locks
import MemoryMappingModule.LockedHeaps
import MemoryMappingModule.PrintedAccess
import MemoryMappingModule.PageRoom
import MemoryMappingModule.PatchedTranslations
import MemoryMappingModule.HeapLifetime
import MemoryMappingModule.ModuleHooks
import MemoryMappingModule.KernelPatches
import MemoryMappingModule.UserRanges
