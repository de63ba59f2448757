import Retarget.Archive
import Retarget.Bytes
import Retarget.ClassFile
import Retarget.ClassName
import Retarget.ClassOrigin
import Retarget.ClassSurvey
import Retarget.Classpath.Basic
import Retarget.Classpath.Eager
import Retarget.Classpath.Root
import Retarget.CommandLine.Command
import Retarget.CommandLine.Places
import Retarget.CommandLine.Run
import Retarget.CommandLine.Scan
import Retarget.Config
import Retarget.Crc32
import Retarget.Deflate.Codes
import Retarget.Deflate.Compress
import Retarget.Deflate.Inflate
import Retarget.Deflate.Lengths
import Retarget.Deflate.Tokens
import Retarget.Downgrade.Error
import Retarget.Downgrade.Run
import Retarget.Engine.Basic
import Retarget.Engine.Builtin
import Retarget.Engine.Scripted
import Retarget.Entry
import Retarget.EntryPath
import Retarget.Fault
import Retarget.FileSystem.Basic
import Retarget.FileSystem.Change
import Retarget.Folder
import Retarget.Json.Basic
import Retarget.Json.Decode
import Retarget.Json.Parse
import Retarget.Json.Render
import Retarget.Main
import Retarget.MemoryTree
import Retarget.NameSet
import Retarget.OpenTree
import Retarget.Path
import Retarget.Proofs.Archive.Uses
import Retarget.Proofs.ClassFile.Header
import Retarget.Proofs.ClassFile.Lens
import Retarget.Proofs.ClassSurvey.Above
import Retarget.Proofs.ClassSurvey.Agreement
import Retarget.Proofs.ClassSurvey.Buckets
import Retarget.Proofs.ClassSurvey.Histogram
import Retarget.Proofs.Classpath.History
import Retarget.Proofs.Classpath.Laziness
import Retarget.Proofs.Classpath.ProjectTest
import Retarget.Proofs.CommandLine.ExitCode
import Retarget.Proofs.CommandLine.Recovery
import Retarget.Proofs.Config.MergedClasspath
import Retarget.Proofs.Deflate.Bits
import Retarget.Proofs.Deflate.BlockCodes
import Retarget.Proofs.Deflate.GivenCodes
import Retarget.Proofs.Deflate.Lengths
import Retarget.Proofs.Deflate.Packing
import Retarget.Proofs.Deflate.RoundTrip
import Retarget.Proofs.Deflate.Symbols
import Retarget.Proofs.Deflate.Tokens
import Retarget.Proofs.Deflate.Trees
import Retarget.Proofs.Deflate.Words
import Retarget.Proofs.Destination.Appending
import Retarget.Proofs.Downgrade.EarlyFailure
import Retarget.Proofs.Downgrade.Failure
import Retarget.Proofs.Downgrade.SkippedClasses
import Retarget.Proofs.Downgrade.Success
import Retarget.Proofs.Entry.Roles
import Retarget.Proofs.EntryPath.Ancestors
import Retarget.Proofs.EntryPath.Grammar
import Retarget.Proofs.EntryPath.Made
import Retarget.Proofs.EntryPath.Normal
import Retarget.Proofs.FileSystem.EqualPaths
import Retarget.Proofs.FileSystem.OneFile
import Retarget.Proofs.FileSystem.Places
import Retarget.Proofs.FileSystem.Siblings
import Retarget.Proofs.FileSystem.WellFormed
import Retarget.Proofs.Folder.Confinement
import Retarget.Proofs.Folder.Interchange
import Retarget.Proofs.Folder.Listing
import Retarget.Proofs.Json.Records
import Retarget.Proofs.Json.RoundTrip
import Retarget.Proofs.Json.Strings
import Retarget.Proofs.Lists.Lookup
import Retarget.Proofs.MemoryTree.Entries
import Retarget.Proofs.MemoryTree.Edits
import Retarget.Proofs.MemoryTree.Indexed
import Retarget.Proofs.MemoryTree.Lockstep
import Retarget.Proofs.Path.Components
import Retarget.Proofs.Path.Siblings
import Retarget.Proofs.Report.RoundTrip
import Retarget.Proofs.Settings.Validation
import Retarget.Proofs.Support.Additions
import Retarget.Proofs.Support.AllOrNothing
import Retarget.Proofs.Support.Parents
import Retarget.Proofs.Support.Presence
import Retarget.Proofs.Swap.BackupFailure
import Retarget.Proofs.Swap.Completion
import Retarget.Proofs.Swap.CrashSafety
import Retarget.Proofs.Text.Decimal
import Retarget.Proofs.Text.Parts
import Retarget.Proofs.Text.Slices
import Retarget.Proofs.Timestamp.Calendar
import Retarget.Proofs.Timestamp.RoundTrip
import Retarget.Proofs.Walk.Agreement
import Retarget.Proofs.Walk.Counts
import Retarget.Proofs.Walk.Images
import Retarget.Proofs.Walk.Invariant
import Retarget.Proofs.Walk.OwnClass
import Retarget.Proofs.Walk.Stamping
import Retarget.Proofs.Walk.TakenOver
import Retarget.Proofs.Zip.Names
import Retarget.Proofs.Zip.Records
import Retarget.Proofs.Zip.RoundTrip
import Retarget.Proofs.ZipTree.Clashes
import Retarget.Proofs.ZipTree.Coherence
import Retarget.Proofs.ZipTree.Written
import Retarget.Proofs.ZipWriter.Calls
import Retarget.Proofs.ZipWriter.Entries
import Retarget.Proofs.ZipWriter.File
import Retarget.Report
import Retarget.Settings
import Retarget.Sha256
import Retarget.Support.Catalog
import Retarget.Support.Injection
import Retarget.Swap
import Retarget.Text.Blank
import Retarget.Text.CodePage437
import Retarget.Text.Decimal
import Retarget.Text.Logged
import Retarget.Text.Quoted
import Retarget.Text.Split
import Retarget.Text.Unprinted
import Retarget.Text.Utf8
import Retarget.Timestamp
import Retarget.Toml.Basic
import Retarget.Toml.Moment
import Retarget.Toml.Parse
import Retarget.Toml.Tables
import Retarget.Toml.Word
import Retarget.Walk
import Retarget.Zip.Extra
import Retarget.Zip.Image
import Retarget.Zip.Members
import Retarget.Zip.Record
import Retarget.ZipTree
import Retarget.ZipWriter
