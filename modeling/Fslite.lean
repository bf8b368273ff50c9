import Fslite.Sqlite.FileSystem
import Fslite.Sqlite.Run.Move
import Fslite.Sqlite.Run.Version
import Fslite.Sqlite.Run.Deletion
import Fslite.Sqlite.Run.Usage
import Fslite.Sqlite.Run.Location
import Fslite.Sqlite.Run.Consumer
import Fslite.Sqlite.Run.Quota
import Fslite.Sqlite.Run.Failure
import Fslite.Sqlite.Run.Integrity
import Fslite.Sqlite.Run.Stream
import Fslite.Sqlite.Run.Appends
import Fslite.Sqlite.Run.Owned
import Fslite.Sqlite.Run.Resume
import Fslite.Sqlite.Run.Staged
import Fslite.Sqlite.Run.Pages
import Fslite.Sqlite.Run.Views
import Fslite.Sqlite.Run.Addressing
import Fslite.Sqlite.Run.Ledger
import Fslite.Sqlite.Run.Pattern
import Fslite.Sqlite.Wildcard
import Fslite.Sqlite.Run.Origin
import Fslite.Sqlite.Run.Rewrite
import Fslite.Sqlite.Run.Isomorphism
import Fslite.Command.Range
import Fslite.Core.Canonical
import Fslite.Command.Quote
import Fslite.Command.RangeHeader
import Fslite.Sqlite.Run.Depth
import Fslite.Sqlite.Run.ContentPages
import Fslite.Sqlite.Run.Mkdir
import Fslite.Sqlite.Effect.Attribute
import Fslite.Sqlite.Run.Attribute
import Fslite.Sqlite.Run.Moment
import Fslite.Sqlite.Run.Durable
import Fslite.Sqlite.Run.Restore
import Fslite.Sqlite.Run.Expectation
import Fslite.Command.Render
import Fslite.Window
import Fslite.Showcase.RateLimit
import Fslite.Showcase.RateBound
import Fslite.Showcase.RetryAfter
import Fslite.Showcase.Gateway
import Fslite.Sqlite.Run.Discard
import Fslite.Sqlite.Run.Fault
import Fslite.Showcase.ResetCoordinator
import Fslite.Showcase.ResetExclusion
import Fslite.Showcase.ResetGate
import Fslite.Command.Parser
import Fslite.Command.Consistent
import Fslite.Sqlite.Run.Isolation
import Fslite.Sqlite.Run.Exceeding
import Fslite.Command.Update
import Fslite.Sqlite.Run.Confined
import Fslite.Sqlite.Run.Atomic
import Fslite.Hierarchy
import Fslite.Sqlite.Place
import Fslite.Sqlite.Run.FileTree
import Fslite.Sqlite.Run.Volume
import Fslite.Sqlite.Run.Bins
import Fslite.Sqlite.Refine.Path
import Fslite.Sqlite.Refine.Create
import Fslite.Sqlite.Refine.Content
import Fslite.Sqlite.Refine.Attribute
import Fslite.Sqlite.Refine.Remove
import Fslite.Sqlite.Refine.Move
import Fslite.Sqlite.Refine.Copy
import Fslite.Sqlite.Refine.Trash
import Fslite.Sqlite.Refine.Operation
import Fslite.Sqlite.Refine.Query
import Fslite.Sqlite.Refine.Simulation
import Fslite.Sqlite.Run.Composition
