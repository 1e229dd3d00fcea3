import ElfIndex.Store
import ElfIndex.Lib.WordMemory
import ElfIndex.Lib.Fuel
import ElfIndex.Lib.SplitTree
import ElfIndex.Lib.TaskPool
import ElfIndex.Lib.Bitmap
import ElfIndex.SortingEngine.Insertion
import ElfIndex.SortingEngine.Radix
import ElfIndex.SortingEngine.RadixPermute
import ElfIndex.SortingEngine.Engine
import ElfIndex.Elf.Reader
import ElfIndex.Elf.DimTree
import ElfIndex.Elf.Search
import ElfIndex.Elf.Image
import ElfIndex.Elf.Builder
import ElfIndex.Elf.Layout
import ElfIndex.Elf.Written
import ElfIndex.Elf.RoundTrip
import ElfIndex.Elf.RootLayout
import ElfIndex.Elf.EndToEnd
import ElfIndex.Elf.ExactMatch
import ElfIndex.Elf.RootRange
import ElfIndex.Parallel.Task
import ElfIndex.Parallel.NodeLevel
import ElfIndex.Parallel.SubTree
import ElfIndex.Parallel.ThreadPool
import ElfIndex.Parallel.Wakeup
import ElfIndex.KDTree
import ElfIndex.Imprint.Bins
import ElfIndex.Imprint.Kernels
import ElfIndex.Imprint.Lines
import ElfIndex.Imprint.Uncompressed
import ElfIndex.Imprint.Encoder
import ElfIndex.Imprint.Compressed
import ElfIndex.Scan.SimdKernels
import ElfIndex.Scan.SIMDSeqScan
import ElfIndex.Lib.Buffer
import ElfIndex.Scan.Colseqscan
import ElfIndex.Imprint.SIMD
import ElfIndex.Bitweaving.BitVector
import ElfIndex.Bitweaving.Queries
import ElfIndex.Lib.Blocks
import ElfIndex.Bitweaving.Library
import ElfIndex.Parallel.TaskPlaces
import ElfIndex.SortingEngine.InPlace
import ElfIndex.Elf.Footprint
import ElfIndex.Imprint.Dictionary
import ElfIndex.Imprint.Counts
import ElfIndex.KDTree.ExactMatch
import ElfIndex.Lib.Search
import ElfIndex.Imprint.CompressedExactMatch
import ElfIndex.Scan.ExactMatch
import ElfIndex.Imprint.ResultBounds
import ElfIndex.Elf.Window
import ElfIndex.Lib.Buckets
import ElfIndex.SortingEngine.Digits
import ElfIndex.SortedProjection.Build
import ElfIndex.SortedProjection.Queries
import ElfIndex.Elf.FrequencyBuilder
import ElfIndex.Elf.FrequencyWritten
import ElfIndex.Elf.SameImage
import ElfIndex.Lib.Related
import ElfIndex.SortingEngine.PastEnd
import ElfIndex.Lib.SortedDifference
import ElfIndex.ResultCheck
import ElfIndex.StoreFilling
import ElfIndex.Scan.ReturnTids
import ElfIndex.Lib.PackedFields
import ElfIndex.Lib.BitSlices
import ElfIndex.Bitweaving.ColumnBlock
import ElfIndex.Bitweaving.BwVColumnBlock
import ElfIndex.Bitweaving.BwVCodes
import ElfIndex.Bitweaving.BwVScan
import ElfIndex.Bitweaving.BwHColumnBlock
import ElfIndex.Bitweaving.BwHCodes
import ElfIndex.Bitweaving.BwHWords
import ElfIndex.Bitweaving.BwHScan
import ElfIndex.Bitweaving.NaiveColumnBlock
import ElfIndex.Bitweaving.BlockTypes
import ElfIndex.Bitweaving.Table
import ElfIndex.Bitweaving.ColumnRuns
import ElfIndex.Bitweaving.TableRuns
import ElfIndex.Bitweaving.TableScan
import ElfIndex.Lib.LowestBit
import ElfIndex.Bitweaving.BitVectorIterator
import ElfIndex.Bitweaving.ColumnIds
import ElfIndex.Bitweaving.TableIndex
import ElfIndex.Bitweaving.TableStates
import ElfIndex.Bitweaving.TableModel
