import Rustica.Lib.Exec
import Rustica.Ledger
import Rustica.Idle
import Rustica.Spawn
import Rustica.Handoff
import Rustica.Request
import Rustica.Reload
import Rustica.Bounds
import Rustica.Batch
import Rustica.Order
import Rustica.Codec
import Rustica.Text
import Rustica.Validity
import Rustica.Moontest
import Rustica.ModuleCache
import Rustica.Objects
import Rustica.Borrow
import Rustica.Chars
import Rustica.Reader
import Rustica.Jsonb
import Rustica.IntArrays
import Rustica.Rows
import Rustica.Recycle
import Rustica.Capacity
import Rustica.Rooted
import Rustica.Flow
import Rustica.Staff
import Rustica.Positions
import Rustica.Rounds
import Rustica.Teardown
import Rustica.TidMap
import Rustica.Lib.Looked
import Rustica.QueryTypes
import Rustica.Nulls
import Rustica.Embedded
import Rustica.Literals
import Rustica.Lib.Alloc
import Rustica.Lib.Varlena
import Rustica.Booleans
import Rustica.Malformed
import Rustica.Lib.Printf
import Rustica.Log
import Rustica.Reports
import Rustica.Invalidation
import Rustica.Specs
import Rustica.SpecErrors
import Rustica.Lib.Arena
import Rustica.Loading
import Rustica.Lib.Links
import Rustica.LocalRefs
import Rustica.Varatt
import Rustica.Lib.Arrays
import Rustica.PlanBlock
import Rustica.Lib.Server
import Rustica.JsString
import Rustica.Arguments
import Rustica.Cursor
import Rustica.Lib.Spans
import Rustica.Http
import Rustica.Coherence
import Rustica.Fmgr
import Rustica.Lib.Conduit
import Rustica.Conversation
import Rustica.Buildable
