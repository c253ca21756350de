import OsLab.Checksums.Checksum
import OsLab.Disks.Accounting
import OsLab.Disks.Batches
import OsLab.Disks.Choosing
import OsLab.Disks.Clock
import OsLab.Disks.Completion
import OsLab.Disks.Disk
import OsLab.Disks.Estimates
import OsLab.Disks.Geometry
import OsLab.Disks.Greedy
import OsLab.Disks.Machine
import OsLab.Disks.Mechanics
import OsLab.Disks.Phases
import OsLab.Disks.Precise
import OsLab.Disks.Refinement
import OsLab.Disks.SameWindow
import OsLab.Disks.Serving
import OsLab.Disks.Shadow
import OsLab.Disks.Simulation
import OsLab.Disks.Ticks
import OsLab.Ffs.Accounting
import OsLab.Ffs.Blocks
import OsLab.Ffs.Consistency
import OsLab.Ffs.Fs
import OsLab.Ffs.Groups
import OsLab.Ffs.Operations
import OsLab.Ffs.Outcomes
import OsLab.Ffs.Spans
import OsLab.Lfs.Checkpoint
import OsLab.Lfs.Cleaning
import OsLab.Lfs.Consistency
import OsLab.Lfs.Contents
import OsLab.Lfs.Crash
import OsLab.Lfs.Directory
import OsLab.Lfs.Disk
import OsLab.Lfs.Errors
import OsLab.Lfs.Generated
import OsLab.Lfs.Liveness
import OsLab.Lfs.Log
import OsLab.Lfs.Main
import OsLab.Lfs.Names
import OsLab.Lfs.Operations
import OsLab.Lfs.Outcomes
import OsLab.Lfs.Paths
import OsLab.Lfs.Percentages
import OsLab.Lfs.Preservation
import OsLab.Lfs.ReadPaths
import OsLab.Lfs.Reading
import OsLab.Lfs.Recorder
import OsLab.Lfs.Tree
import OsLab.Lfs.Validity
import OsLab.Lfs.Writing
import OsLab.Lib.Alike
import OsLab.Lib.CondVar
import OsLab.Lib.Extent
import OsLab.Lib.FirstLeast
import OsLab.Lib.GraphEdits
import OsLab.Lib.Grid
import OsLab.Lib.HardLinks
import OsLab.Lib.LinkGraph
import OsLab.Lib.Linked
import OsLab.Lib.Listing
import OsLab.Lib.Lts
import OsLab.Lib.Mutex
import OsLab.Lib.Ownership
import OsLab.Lib.Parity
import OsLab.Lib.Path
import OsLab.Lib.RearSelection
import OsLab.Lib.Resolve
import OsLab.Lib.Revolution
import OsLab.Lib.RunLength
import OsLab.Lib.Service
import OsLab.Lib.Striping
import OsLab.Lib.TreePaths
import OsLab.Lib.Walks
import OsLab.Lib.Words
import OsLab.Python
import OsLab.Raid.Array
import OsLab.Raid.Failure
import OsLab.Raid.Layout
import OsLab.Raid.PartialReads
import OsLab.Raid.Requests
import OsLab.Raid.SmallWrite
import OsLab.Raid.Storage
import OsLab.Raid.Timing
import OsLab.Raid.WholeRows
import OsLab.Threads.Reaction
import OsLab.Threads.Spurious
import OsLab.Threads.Train
import OsLab.Utility.Zip
import OsLab.Vsfs.Calls
import OsLab.Vsfs.Consistency
import OsLab.Vsfs.Contents
import OsLab.Vsfs.Dump
import OsLab.Vsfs.Fs
import OsLab.Vsfs.Names
import OsLab.Vsfs.Operations
import OsLab.Vsfs.Requests
import OsLab.Vsfs.Steps
import OsLab.Vsfs.Storage
import OsLab.Vsfs.Summary
import OsLab.Vsfs.Tree
import OsLab.Vsfs.Undo
import OsLab.Vsfs.WhichCall
import OsLab.Web.Access
import OsLab.Web.Client
import OsLab.Web.Confinement
import OsLab.Web.Fetch
import OsLab.Web.FirstLine
import OsLab.Web.History
import OsLab.Web.IoHelper
import OsLab.Web.Locking
import OsLab.Web.Overflow
import OsLab.Web.Queue
import OsLab.Web.Request
import OsLab.Web.Sched
import OsLab.Web.Server
import OsLab.Web.Ties
import OsLab.Web.WakeUps
