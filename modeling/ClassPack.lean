import ClassPack.Archive.Archiver
import ClassPack.Archive.Zip
import ClassPack.Artifact
import ClassPack.CommandLine.Options
import ClassPack.CommandLine.Program
import ClassPack.CommandLine.Reading
import ClassPack.Config
import ClassPack.Failure
import ClassPack.FileSystem.Basic
import ClassPack.FileSystem.Calls
import ClassPack.FileSystem.Description
import ClassPack.FileSystem.Fault
import ClassPack.FileSystem.Resolve
import ClassPack.FileSystem.Walk
import ClassPack.Glob.Match
import ClassPack.Glob.Pattern
import ClassPack.Main
import ClassPack.Manifest
import ClassPack.Packaging
import ClassPack.Path.Name
import ClassPack.Path.Text
import ClassPack.Process.Child
import ClassPack.Process.Rehearsal
import ClassPack.Process.Shell
import ClassPack.Process.Status
import ClassPack.Proofs.Accepted
import ClassPack.Proofs.ArchiveKept
import ClassPack.Proofs.Archiving
import ClassPack.Proofs.Blame
import ClassPack.Proofs.BreakingOff
import ClassPack.Proofs.Collecting
import ClassPack.Proofs.CommandLine.Accounts
import ClassPack.Proofs.CommandLine.Endings
import ClassPack.Proofs.CommandLine.Rendering
import ClassPack.Proofs.Completing
import ClassPack.Proofs.Confined
import ClassPack.Proofs.Copying
import ClassPack.Proofs.Deleting
import ClassPack.Proofs.Delivering
import ClassPack.Proofs.Entries
import ClassPack.Proofs.EntryOrder
import ClassPack.Proofs.FileSystem.Footing
import ClassPack.Proofs.FileSystem.Growth
import ClassPack.Proofs.FileSystem.Leads
import ClassPack.Proofs.FileSystem.Making
import ClassPack.Proofs.FileSystem.Overwriting
import ClassPack.Proofs.FileSystem.Planting
import ClassPack.Proofs.FileSystem.Removing
import ClassPack.Proofs.FileSystem.Repeating
import ClassPack.Proofs.FileSystem.Succeeding
import ClassPack.Proofs.FileSystem.Visiting
import ClassPack.Proofs.FileSystem.Walking
import ClassPack.Proofs.FileSystem.Writing
import ClassPack.Proofs.Finding
import ClassPack.Proofs.Glob.Selecting
import ClassPack.Proofs.Halting
import ClassPack.Proofs.HiddenEntries
import ClassPack.Proofs.JarOutcome
import ClassPack.Proofs.Json.Grammar
import ClassPack.Proofs.Json.ReadingBack
import ClassPack.Proofs.Json.Scalars
import ClassPack.Proofs.Json.Values
import ClassPack.Proofs.MatchOrder
import ClassPack.Proofs.Oblivious
import ClassPack.Proofs.OneManifest
import ClassPack.Proofs.OutputPaths
import ClassPack.Proofs.OwnTarget
import ClassPack.Proofs.Path.Above
import ClassPack.Proofs.Path.Segments
import ClassPack.Proofs.Phases
import ClassPack.Proofs.Planning
import ClassPack.Proofs.Preparing
import ClassPack.Proofs.Progress
import ClassPack.Proofs.Pruning
import ClassPack.Proofs.Rebuilding
import ClassPack.Proofs.Rechecking
import ClassPack.Proofs.Recopying
import ClassPack.Proofs.Remaking
import ClassPack.Proofs.Rerunning
import ClassPack.Proofs.Running
import ClassPack.Proofs.SingleCopies
import ClassPack.Proofs.Site
import ClassPack.Proofs.SourceRoot
import ClassPack.Proofs.StagedTree
import ClassPack.Proofs.Staging
import ClassPack.Proofs.StaleOutput
import ClassPack.Proofs.Steps
import ClassPack.Proofs.Telling
import ClassPack.Proofs.Text.Showing
import ClassPack.Proofs.Text.Stopping
import ClassPack.Proofs.Timeout
import ClassPack.Proofs.WorkingFiles
import ClassPack.Report.Json
import ClassPack.Report.Sink
import ClassPack.Report.Summary
import ClassPack.Staging
import ClassPack.Text.Blank
import ClassPack.Text.Utf8
import ClassPack.Workshop
