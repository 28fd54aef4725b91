import Metainfo.Data.Arith
import Metainfo.Data.Bytes
import Metainfo.Data.Search
import Metainfo.Digest.Sha1
import Metainfo.Bencode.Value
import Metainfo.Bencode.Encode
import Metainfo.Bencode.Error
import Metainfo.Bencode.Decode
import Metainfo.Bencode.Locate
import Metainfo.Text.Quoted
import Metainfo.Piece.Size
import Metainfo.Torrent.Error
import Metainfo.Piece.Hash
import Metainfo.Layout.Path
import Metainfo.Layout.FileList
import Metainfo.Layout.Stream
import Metainfo.Torrent.Basic
import Metainfo.Text.Utf8
import Metainfo.Bencode.Debug
import Metainfo.Torrent.Raw
import Metainfo.Disk.Basic
import Metainfo.Content.Reader
import Metainfo.Content.Progress
import Metainfo.Content.Pool
import Metainfo.Content.Hashing
import Metainfo.Content.Verify
import Metainfo.Error
import Metainfo.Torrent.Read
import Metainfo.Text.Decimal
import Metainfo.Build.Scan
import Metainfo.Build.Builder
import Metainfo.Settings.File
import Metainfo.Cli.Args
import Metainfo.Text.Human
import Metainfo.Text.Date
import Metainfo.Cli.Console
import Metainfo.Cli.Create
import Metainfo.Cli.Verify
import Metainfo.Cli.Inspect
import Metainfo.Cli.Run
import Metainfo.Main
import Metainfo.Proofs.Bytes
import Metainfo.Proofs.Bencode.WellFormed
import Metainfo.Proofs.Bencode.Scalars
import Metainfo.Proofs.Bencode.RoundTrip
import Metainfo.Proofs.Bencode.Dict
import Metainfo.Proofs.Bencode.PrefixFree
import Metainfo.Proofs.Bencode.Locate
import Metainfo.Proofs.Torrent.Grammar
import Metainfo.Proofs.Torrent.Lossless
import Metainfo.Proofs.Torrent.Reparse
import Metainfo.Proofs.Content.Delivery
import Metainfo.Proofs.Layout.Spans
import Metainfo.Proofs.Content.Reading
import Metainfo.Proofs.Content.Sequential
import Metainfo.Proofs.Content.Report
import Metainfo.Proofs.Disk.Walk
import Metainfo.Proofs.Content.SinglePiece
import Metainfo.Proofs.Content.HashVerify
import Metainfo.Proofs.Build.Reread
import Metainfo.Proofs.Layout.Pieces
import Metainfo.Proofs.Layout.Lookups
import Metainfo.Proofs.Content.CachedReads
import Metainfo.Proofs.Content.ProgressReports
import Metainfo.Proofs.Piece.Sizes
import Metainfo.Proofs.Layout.Offsets
import Metainfo.Proofs.Build.Trackers
import Metainfo.Proofs.Build.ScanOrder
import Metainfo.Proofs.Piece.Digests
import Metainfo.Proofs.Bencode.Termination
