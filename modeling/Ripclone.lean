import Ripclone.Library.Run
import Ripclone.Library.Table
import Ripclone.Library.Result
import Ripclone.Library.Reach
import Ripclone.Library.Calls
import Ripclone.Library.FileTree
import Ripclone.Results
import Ripclone.Control.Schema
import Ripclone.Control.Sqlite
import Ripclone.Control.Runs
import Ripclone.Control.Fencing
import Ripclone.Control.RowInvariant
import Ripclone.Control.Artifacts
import Ripclone.Control.Admission
import Ripclone.Control.Turns
import Ripclone.Control.Instances
import Ripclone.Pins
import Ripclone.Pack.Idx
import Ripclone.Clonepack
import Ripclone.Pack.Builder
import Ripclone.Pack.Contents
import Ripclone.Server.Storage
import Ripclone.Server.Builder
import Ripclone.Pack.Levels
import Ripclone.Pack.Batches
import Ripclone.Pack.IdxSizes
import Ripclone.Server.HeadPacks
import Ripclone.Server.History
import Ripclone.Server.PackRuns
import Ripclone.Library.Lines
import Ripclone.Library.Utf8
import Ripclone.Library.Text
import Ripclone.Library.PktLine
import Ripclone.Library.Wire
import Ripclone.Library.Slices
import Ripclone.Library.Words
import Ripclone.Library.Machine
import Ripclone.Library.Maximal
import Ripclone.Library.Replace
import Ripclone.Library.Semaphore
import Ripclone.Library.Zlib
import Ripclone.Library.Traces
import Ripclone.Validation
import Ripclone.Branches
import Ripclone.Server.Refs
import Ripclone.Server.SidePacks
import Ripclone.Server.Slots.Wake
import Ripclone.Server.Uploads.Stored
import Ripclone.Server.Refresh
import Ripclone.Server.Lifecycle
import Ripclone.Server.Lifecycle.Moves
import Ripclone.Server.Lifecycle.Invariant
import Ripclone.Server.Lifecycle.Presence
import Ripclone.Server.Lifecycle.Sizes
import Ripclone.Server.Lifecycle.Leaks
import Ripclone.Manifest
import Ripclone.Manifest.Geometry
import Ripclone.Manifest.Delta
import Ripclone.Manifest.Stored
import Ripclone.Server.Tables
import Ripclone.Archive.Frames
import Ripclone.Archive.Bundles
import Ripclone.Archive.PlainTools
import Ripclone.Archive.Layout
import Ripclone.Archive.Fragments
import Ripclone.Archive.Plan
import Ripclone.Archive.Incremental
import Ripclone.Archive.Builder
import Ripclone.Archive.Gaps
import Ripclone.Archive.Rebuild
import Ripclone.Archive.Tail
import Ripclone.Archive.TailExact
import Ripclone.Archive.Coverage
import Ripclone.Archive.Groups
import Ripclone.Archive.TailTable
import Ripclone.Fsutil
import Ripclone.WorktreeWriter
import Ripclone.WorktreeWriter.Written
import Ripclone.Extract.Confinement
import Ripclone.Extract.Distinct
import Ripclone.Extract.Chunks
import Ripclone.Extract.Exact
import Ripclone.Extract.PackBytes
import Ripclone.Extract.ObjHeader
import Ripclone.Server.FilesBuild
import Ripclone.Server.FilesChain
import Ripclone.Cancel
import Ripclone.Client.Cleanup
import Ripclone.Client.Staging
import Ripclone.Client.StaleStaging
import Ripclone.Provider
import Ripclone.Mirrors
import Ripclone.Registry
import Ripclone.Registry.StorageKeys
import Ripclone.LsRemote
import Ripclone.LsRefs
import Ripclone.LsRefs.Agreement
import Ripclone.LsRefs.Listings
import Ripclone.Server.Poll
import Ripclone.Server.Api
import Ripclone.Server.SideClosure
import Ripclone.Server.OwnHistory
import Ripclone.Tags.Ids
import Ripclone.Branches.Artifact
import Ripclone.Tags.Pack
import Ripclone.Tags.PackIdx
import Ripclone.Tags.Check
import Ripclone.Tags.Build
import Ripclone.Client.FullRefs
import Ripclone.Client.Download
import Ripclone.Client.Workers
import Ripclone.Client.Materialize
import Ripclone.Client.EditablePacks
import Ripclone.Client.Transfer
import Ripclone.Client.TransferRuns
import Ripclone.Client.TransferHonest
import Ripclone.Server.AncestorBase
import Ripclone.Server.IdxBundle
import Ripclone.Server.Artifacts
import Ripclone.Client.ServedArtifacts
import Ripclone.Storage.PutLimit
import Ripclone.Storage.PutLimit.Runs
import Ripclone.Auth.Credential
import Ripclone.Git.IndexStats
import Ripclone.Library.Base64
import Ripclone.Registry.AuthHeader
import Ripclone.Git.Stderr
import Ripclone.Git.StderrShown
import Ripclone.Cas.Safe
import Ripclone.Storage.S3.Whole
