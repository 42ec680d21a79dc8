import CellStore.Block
import CellStore.Block.Header
import CellStore.Block.Kind
import CellStore.Block.Writer
import CellStore.Bloom
import CellStore.Bloom.Writer
import CellStore.Blueprint
import CellStore.Blueprint.Build
import CellStore.Bytes
import CellStore.Cell
import CellStore.Cell.Layout
import CellStore.Cell.Record
import CellStore.Checksum
import CellStore.Checksum.Crc
import CellStore.Checksum.Xxh64
import CellStore.Compression
import CellStore.Compression.Codec
import CellStore.Compression.Deflate
import CellStore.Compression.Frames
import CellStore.Compression.Frames.Nested
import CellStore.Compression.Gzip
import CellStore.Compression.Packing
import CellStore.Compression.Repeat
import CellStore.Compression.Snappy
import CellStore.Compression.Zstd
import CellStore.Compression.Zstd.Bits
import CellStore.Compression.Zstd.Literals
import CellStore.Compression.Zstd.Sequences
import CellStore.Compression.Zstd.StateTable
import CellStore.Cursor
import CellStore.DataBlock
import CellStore.Delta
import CellStore.Delta.InPlace
import CellStore.Delta.Writer
import CellStore.Encoding
import CellStore.Error
import CellStore.FileInfo
import CellStore.Hash
import CellStore.Hash.Rounds
import CellStore.Index
import CellStore.Index.Writer
import CellStore.Input
import CellStore.Integer.Septets
import CellStore.Integer.VarLong
import CellStore.Key
import CellStore.Message.TrailerFields
import CellStore.Message.Wire
import CellStore.Mutation
import CellStore.Named
import CellStore.Pieces
import CellStore.Proofs.Answers
import CellStore.Proofs.Block
import CellStore.Proofs.Bloom
import CellStore.Proofs.BloomRows
import CellStore.Proofs.Blueprint
import CellStore.Proofs.CellLayout
import CellStore.Proofs.Checksum
import CellStore.Proofs.Cut
import CellStore.Proofs.Damage
import CellStore.Proofs.DamagedBlock
import CellStore.Proofs.DamagedFile
import CellStore.Proofs.DamagedScan
import CellStore.Proofs.DataBlock
import CellStore.Proofs.Delta
import CellStore.Proofs.DeltaChain
import CellStore.Proofs.DeltaFraming
import CellStore.Proofs.DeltaInPlace
import CellStore.Proofs.DeltaKeys
import CellStore.Proofs.FileInfo
import CellStore.Proofs.FrameContent
import CellStore.Proofs.Frames
import CellStore.Proofs.Framing
import CellStore.Proofs.Hash
import CellStore.Proofs.Heap
import CellStore.Proofs.Index
import CellStore.Proofs.IndexBlocks
import CellStore.Proofs.IndexLevels
import CellStore.Proofs.Input
import CellStore.Proofs.Integer
import CellStore.Proofs.Interleave
import CellStore.Proofs.KeyOrder
import CellStore.Proofs.Load
import CellStore.Proofs.Merge
import CellStore.Proofs.Message
import CellStore.Proofs.Metadata
import CellStore.Proofs.OneOrder
import CellStore.Proofs.Partition
import CellStore.Proofs.Pieces
import CellStore.Proofs.Ranked
import CellStore.Proofs.ReadBack
import CellStore.Proofs.Record
import CellStore.Proofs.RegionScan
import CellStore.Proofs.RowLookup
import CellStore.Proofs.Search
import CellStore.Proofs.Seek
import CellStore.Proofs.SeekRuns
import CellStore.Proofs.SeekTargets
import CellStore.Proofs.Snappy
import CellStore.Proofs.StableSort
import CellStore.Proofs.Steady
import CellStore.Proofs.Tombstones
import CellStore.Proofs.Trailer
import CellStore.Proofs.Tree
import CellStore.Proofs.Utf8
import CellStore.Proofs.Visible
import CellStore.Proofs.Walk
import CellStore.Proofs.Writer
import CellStore.Reading
import CellStore.Region.Files
import CellStore.Region.Heap
import CellStore.Region.Merge
import CellStore.Region.Options
import CellStore.Region.Scan
import CellStore.Region.Shown
import CellStore.Region.Tombstones
import CellStore.Region.Visible
import CellStore.Run
import CellStore.Settings
import CellStore.Source
import CellStore.StoreFile
import CellStore.Tally
import CellStore.Text.Blank
import CellStore.Text.Numeral
import CellStore.Text.Quoted
import CellStore.Text.Utf8
import CellStore.Trailer
import CellStore.Walk
import CellStore.Checksum.Apart
import CellStore.Proofs.ChunkSums
import CellStore.Cursor.Framed
import CellStore.Proofs.FramedCursor
import CellStore.Proofs.CursorFailure
import CellStore.Proofs.IntegerPlaces
import CellStore.Proofs.InfoEntries
import CellStore.Traced
import CellStore.Proofs.Traced
import CellStore.Proofs.BlockPlaces
import CellStore.Proofs.ReadsInside
