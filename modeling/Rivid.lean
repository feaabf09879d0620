import Rivid.Core.Order
import Rivid.Core.Ksuid
import Rivid.Core.KsuidDecode
import Rivid.Core.Id128
import Rivid.Lib.Machine
import Rivid.Core.Monotonic
import Rivid.Binding.Python
import Rivid.Binding.Js
import Rivid.Binding.Wasm
import Rivid.Binding.Napi
import Rivid.Ts.Ulid
import Rivid.Ts.Sort
import Rivid.Check.Policy
import Rivid.Check.PolicyLines
import Rivid.Check.RoundTrip
import Rivid.Core.SeedTime
import Rivid.Binding.Generator
import Rivid.Check.Allow
import Rivid.Check.Extend
import Rivid.Check.Order
import Rivid.Core.Base58
import Rivid.Core.Base64Url
import Rivid.Core.Checked
import Rivid.Core.Total
import Rivid.Check.Comments
import Rivid.Check.Files
import Rivid.Check.Location
import Rivid.Check.HeapOrder
import Rivid.Check.Verdict
import Rivid.Core.Xoshiro
import Rivid.Core.TimePaths
import Rivid.Core.KsuidTime
import Rivid.Core.UuidText
import Rivid.Core.Uuidv7
import Rivid.Ts.Uuidv7
import Rivid.Lib.Regex
import Rivid.Lib.RegexCarry
import Rivid.Lib.RegexRuns
import Rivid.Lib.RegexSearch
import Rivid.Check.Sql
import Rivid.Check.SqlTable
import Rivid.Check.SqlOptions
import Rivid.Check.SqlLines
import Rivid.Check.SqlStatement
import Rivid.Check.SqlColumn
import Rivid.Check.SqlDefinition
import Rivid.Check.SqlType
import Rivid.Lib.Chunks
import Rivid.Core.Pool
import Rivid.Core.Fill
import Rivid.Check.References
import Rivid.Lib.Gaps
import Rivid.Check.ChainLines
import Rivid.Check.Chain
import Rivid.Lib.Critical
import Rivid.Binding.Shared
import Rivid.Lib.Intake
import Rivid.Binding.Batches
import Rivid.Binding.Host
import Rivid.Binding.HostCalls
import Rivid.Binding.HostRuns
import Rivid.Lib.Groups
import Rivid.Check.WellFormed
import Rivid.Lib.Tally
import Rivid.Check.Report
import Rivid.Check.OutputLines
import Rivid.Check.Commands
import Rivid.Core.Words
import Rivid.Lib.Packed
import Rivid.Binding.Codec
import Rivid.Binding.Process
import Rivid.Binding.Ordered
import Rivid.Lib.Writes
import Rivid.Packages.Prisma
import Rivid.Binding.KsuidSort
import Rivid.Lib.Walk
import Rivid.Binding.Forms
import Rivid.Check.Packages
import Rivid.Binding.KsuidCalls
import Rivid.Check.Scan
