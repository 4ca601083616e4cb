import TileMind.Bench.Behaviour
import TileMind.Bench.Host
import TileMind.Bench.Setup
import TileMind.Brain.Basic
import TileMind.Brain.Builtins
import TileMind.Brain.Definition
import TileMind.Brain.Mind
import TileMind.Brain.Report
import TileMind.Brain.Timers
import TileMind.Cbor.Item
import TileMind.Cbor.Read
import TileMind.Code.Assembler
import TileMind.Code.Compile
import TileMind.Code.ConstantPool
import TileMind.Code.Row
import TileMind.Code.Scope
import TileMind.Code.StackDepth
import TileMind.Config.Duration
import TileMind.Config.Toml
import TileMind.Config.Yaml
import TileMind.Config.Yaml.Scalar
import TileMind.Decimal.Layout
import TileMind.Decimal.Parts
import TileMind.Decimal.Read
import TileMind.Decimal.Shortest
import TileMind.Doc.Basic
import TileMind.Doc.Program
import TileMind.Doc.Row
import TileMind.Doc.Script
import TileMind.Doc.Value
import TileMind.Machine.Fiber
import TileMind.Machine.Handles
import TileMind.Machine.Host
import TileMind.Machine.Run
import TileMind.Machine.Scheduler
import TileMind.Machine.Step
import TileMind.Main
import TileMind.Program.Basic
import TileMind.Program.Instr
import TileMind.Program.Listing
import TileMind.Program.Wire
import TileMind.Project.Basic
import TileMind.Project.CommandLine
import TileMind.Project.Definition
import TileMind.Project.Disk
import TileMind.Project.Manifest
import TileMind.Project.Path
import TileMind.Registry.Conversions
import TileMind.Registry.Core
import TileMind.Registry.Functions
import TileMind.Registry.Operators
import TileMind.Registry.Services
import TileMind.Registry.Types
import TileMind.Row.Diagnostic
import TileMind.Row.Expr
import TileMind.Row.Reader
import TileMind.Row.Token
import TileMind.Row.Typing
import TileMind.Script.Basic
import TileMind.Script.Capacity
import TileMind.Script.Convert
import TileMind.Script.Eval
import TileMind.Script.Object
import TileMind.Script.Operators
import TileMind.Script.Reader
import TileMind.Script.Scope
import TileMind.Script.Syntax
import TileMind.Script.Tile
import TileMind.Script.Token
import TileMind.Text.Case
import TileMind.Text.Digits
import TileMind.Text.Escaped
import TileMind.Text.Glyph
import TileMind.Text.Letter
import TileMind.Text.Numeral
import TileMind.Text.Quoted
import TileMind.Tile.CallSpec
import TileMind.Tile.Catalog
import TileMind.Value.Cells
import TileMind.Value.Datum
import TileMind.Value.Fault
import TileMind.Value.Heap
import TileMind.Value.OrderedMap
import TileMind.Value.Scalar
import TileMind.Proofs.Brain.Errands
import TileMind.Proofs.Brain.HostAccess
import TileMind.Proofs.Brain.Landing
import TileMind.Proofs.Brain.Locals
import TileMind.Proofs.Brain.Pages
import TileMind.Proofs.Brain.Plays
import TileMind.Proofs.Brain.Reload
import TileMind.Proofs.Brain.Requests
import TileMind.Proofs.Brain.Rules
import TileMind.Proofs.Brain.Scope
import TileMind.Proofs.Brain.Sites
import TileMind.Proofs.Brain.Sleep
import TileMind.Proofs.Brain.Starts
import TileMind.Proofs.Brain.Ticks
import TileMind.Proofs.Brain.TimerOrder
import TileMind.Proofs.Brain.Timers
import TileMind.Proofs.Brain.WaitTimes
import TileMind.Proofs.Brain.Waits
import TileMind.Proofs.Cbor.Items
import TileMind.Proofs.Code.Assembled
import TileMind.Proofs.Code.CallSites
import TileMind.Proofs.Code.Compile
import TileMind.Proofs.Code.ConstantPool
import TileMind.Proofs.Code.Correct
import TileMind.Proofs.Code.Coupled
import TileMind.Proofs.Code.Degradation
import TileMind.Proofs.Code.Emission
import TileMind.Proofs.Code.Emits
import TileMind.Proofs.Code.Generated
import TileMind.Proofs.Code.Height
import TileMind.Proofs.Code.Labels
import TileMind.Proofs.Code.Layout
import TileMind.Proofs.Code.Places
import TileMind.Proofs.Code.Plan
import TileMind.Proofs.Code.PooledConstants
import TileMind.Proofs.Code.Shape
import TileMind.Proofs.Code.Simulation
import TileMind.Proofs.Code.Stretch
import TileMind.Proofs.Code.Survey
import TileMind.Proofs.Code.TypedRows
import TileMind.Proofs.Decimal.General
import TileMind.Proofs.Decimal.Whole
import TileMind.Proofs.Machine.Catches
import TileMind.Proofs.Machine.Ceilings
import TileMind.Proofs.Machine.Children
import TileMind.Proofs.Machine.Claims
import TileMind.Proofs.Machine.Completion
import TileMind.Proofs.Machine.Dealings
import TileMind.Proofs.Machine.Discipline
import TileMind.Proofs.Machine.Handles
import TileMind.Proofs.Machine.History
import TileMind.Proofs.Machine.Hosts
import TileMind.Proofs.Machine.Isolation
import TileMind.Proofs.Machine.Leaks
import TileMind.Proofs.Machine.Lives
import TileMind.Proofs.Machine.Moves
import TileMind.Proofs.Machine.Operands
import TileMind.Proofs.Machine.Operations
import TileMind.Proofs.Machine.Orderly
import TileMind.Proofs.Machine.Preemption
import TileMind.Proofs.Machine.Progress
import TileMind.Proofs.Machine.Regions
import TileMind.Proofs.Machine.Runs
import TileMind.Proofs.Machine.Safety
import TileMind.Proofs.Machine.Scheduler
import TileMind.Proofs.Machine.Steps
import TileMind.Proofs.Machine.Ticks
import TileMind.Proofs.Machine.Trace
import TileMind.Proofs.Machine.Turns
import TileMind.Proofs.Program.Files
import TileMind.Proofs.Program.Listing
import TileMind.Proofs.Program.Records
import TileMind.Proofs.Program.Values
import TileMind.Proofs.Project.Rebuild
import TileMind.Proofs.Registry.Cheapest
import TileMind.Proofs.Row.ArgumentOrder
import TileMind.Proofs.Row.Arguments
import TileMind.Proofs.Row.CallSlots
import TileMind.Proofs.Row.Contents
import TileMind.Proofs.Row.Eval
import TileMind.Proofs.Row.Given
import TileMind.Proofs.Row.Lexing
import TileMind.Proofs.Row.Locality
import TileMind.Proofs.Row.Numbers
import TileMind.Proofs.Row.Overloads
import TileMind.Proofs.Row.Printing
import TileMind.Proofs.Row.Progress
import TileMind.Proofs.Row.Reading
import TileMind.Proofs.Row.Ready
import TileMind.Proofs.Row.Reports
import TileMind.Proofs.Row.Resolution
import TileMind.Proofs.Row.Settled
import TileMind.Proofs.Row.Stores
import TileMind.Proofs.Row.Tokens
import TileMind.Proofs.Script.MapKeys
import TileMind.Proofs.Script.RoundTrip
import TileMind.Proofs.Text.Decoding
import TileMind.Proofs.Text.Utf8
import TileMind.Proofs.Tile.Flattening
import TileMind.Proofs.Value.Copies
import TileMind.Proofs.Value.Datum
import TileMind.Proofs.Value.History
import TileMind.Proofs.Value.Lookup
import TileMind.Proofs.Tile.FlatSlots
import TileMind.Proofs.Brain.Printable
