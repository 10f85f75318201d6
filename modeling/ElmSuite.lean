import ElmSuite.Header.Source
import ElmSuite.Main
import ElmSuite.Program.Generator
import ElmSuite.Proofs.Header.Parentheses
import ElmSuite.Proofs.Header.WholeText
import ElmSuite.Proofs.Header.Reading
import ElmSuite.Proofs.Text.Identifier
import ElmSuite.Proofs.Header.Gap
import ElmSuite.Proofs.Header.ExposingList
import ElmSuite.Proofs.Header.Layout
import ElmSuite.Proofs.Header.CommentLexer
import ElmSuite.Proofs.InterfaceDump
import ElmSuite.Proofs.ModuleTable
import ElmSuite.Proofs.Reconciliation
import ElmSuite.Proofs.Program.Generator
import ElmSuite.Proofs.Run.Action
import ElmSuite.Proofs.Run.Join
import ElmSuite.Proofs.Run.Discovery
import ElmSuite.Proofs.Program.Literal
import ElmSuite.Proofs.Program.Options
import ElmSuite.Proofs.Program.Reading
import ElmSuite.Proofs.Program.Determined
import ElmSuite.Proofs.AmbiguousNames
import ElmSuite.Proofs.Files.Written
import ElmSuite.Proofs.Run.BuildAndScan
import ElmSuite.Proofs.Run.Trace
import ElmSuite.Proofs.Run.Effects
import ElmSuite.Proofs.Run.Abort
import ElmSuite.Proofs.Run.Workers
import ElmSuite.Proofs.Run.Success
import ElmSuite.Proofs.Blame
import ElmSuite.Proofs.Run.Blame
import ElmSuite.Proofs.CommandLine.Blame
import ElmSuite.Proofs.CommandLine.Attempt
import ElmSuite.Proofs.CommandLine.ExitStatus
import ElmSuite.Proofs.Path
import ElmSuite.Proofs.Program.ModuleFile
import ElmSuite.Proofs.Results
import ElmSuite.Proofs.Project.Manifest
import ElmSuite.Proofs.Project.Load
import ElmSuite.Proofs.ReorderedDump
import ElmSuite.Proofs.Run.InputOrder
import ElmSuite.Proofs.Text.Ascii
import ElmSuite.Proofs.Json.Strings
import ElmSuite.Proofs.Json.Numbers
import ElmSuite.Proofs.Json.Values
import ElmSuite.Proofs.Json.Rereading
import ElmSuite.Proofs.Json.WrittenText
import ElmSuite.Proofs.Files.Straight
import ElmSuite.Proofs.Files.Growth
import ElmSuite.Proofs.Project.GeneratedManifest
import ElmSuite.Proofs.Project.GeneratedDirectory
import ElmSuite.Proofs.Header.CommentFree
import ElmSuite.Proofs.Header.LineLoop
import ElmSuite.Proofs.Header.ScannerHistory
import ElmSuite.Proofs.Json.Extent
import ElmSuite.Proofs.DumpRecords
import ElmSuite.Proofs.Run.DumpRun
import ElmSuite.Proofs.Run.DumpReading
import ElmSuite.Proofs.Text.LineCuts
import ElmSuite.Proofs.Text.Utf8
import ElmSuite.Proofs.Header.ListedNames
import ElmSuite.Proofs.Header.SourceBlocks
import ElmSuite.Proofs.Header.SourceText
import ElmSuite.Proofs.Header.ReadAhead
import ElmSuite.Proofs.LegalNames
import ElmSuite.Proofs.RearrangedRecords
import ElmSuite.Proofs.Run.Dispatch
import ElmSuite.Proofs.DumpAcceptance
import ElmSuite.Proofs.Run.FirstFailure
import ElmSuite.Proofs.Run.Calls
import ElmSuite.Proofs.CommandLine.DumpTool
import ElmSuite.Proofs.Project.RereadManifest
import ElmSuite.Proofs.Project.SourceDirectories
import ElmSuite.Proofs.Project.GatheredDirectories
import ElmSuite.Proofs.Project.Relocation
import ElmSuite.Proofs.Header.JoinedItems
import ElmSuite.Proofs.Program.ShownIntegers
import ElmSuite.Proofs.Run.LocatedTools
import ElmSuite.Proofs.Run.Process
