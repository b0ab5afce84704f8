import Gremlin.Bytecode
import Gremlin.Decimal.Double
import Gremlin.Decimal.Layout
import Gremlin.Decimal.Shortest
import Gremlin.Entity
import Gremlin.Entity.Datum
import Gremlin.Environment
import Gremlin.Error
import Gremlin.Expression
import Gremlin.Json
import Gremlin.Json.Text
import Gremlin.Member
import Gremlin.Model
import Gremlin.Options
import Gremlin.Pipeline
import Gremlin.Proofs.Bounds
import Gremlin.Proofs.BytecodeScript
import Gremlin.Proofs.Calls
import Gremlin.Proofs.Completeness
import Gremlin.Proofs.Cosmos
import Gremlin.Proofs.Draft
import Gremlin.Proofs.Enumeration
import Gremlin.Proofs.Erasure
import Gremlin.Proofs.Execution
import Gremlin.Proofs.Fields
import Gremlin.Proofs.Fluent
import Gremlin.Proofs.Histories
import Gremlin.Proofs.Identifiers
import Gremlin.Proofs.Independence
import Gremlin.Proofs.Labels
import Gremlin.Proofs.Layering
import Gremlin.Proofs.Levels
import Gremlin.Proofs.Lines
import Gremlin.Proofs.Literals
import Gremlin.Proofs.Log
import Gremlin.Proofs.Marks
import Gremlin.Proofs.Memory
import Gremlin.Proofs.Minting
import Gremlin.Proofs.Modes
import Gremlin.Proofs.Narrow
import Gremlin.Proofs.Parameters
import Gremlin.Proofs.Plain
import Gremlin.Proofs.Plan
import Gremlin.Proofs.Prefix
import Gremlin.Proofs.Reader
import Gremlin.Proofs.Reading
import Gremlin.Proofs.Rebinding
import Gremlin.Proofs.Recovery
import Gremlin.Proofs.Replacing
import Gremlin.Proofs.Resolution
import Gremlin.Proofs.Results
import Gremlin.Proofs.Rewriting
import Gremlin.Proofs.RoundTrip
import Gremlin.Proofs.Scopes
import Gremlin.Proofs.Shape
import Gremlin.Proofs.Simulation
import Gremlin.Proofs.Sorts
import Gremlin.Proofs.Sources
import Gremlin.Proofs.Spreading
import Gremlin.Proofs.Stacks
import Gremlin.Proofs.Standard
import Gremlin.Proofs.Starts
import Gremlin.Proofs.Subtypes
import Gremlin.Proofs.Tree
import Gremlin.Proofs.Tree.Resolved
import Gremlin.Resolution
import Gremlin.Script.Dispatch
import Gremlin.Script.Output
import Gremlin.Script.Rule
import Gremlin.Script.Stock
import Gremlin.Session
import Gremlin.Settings
import Gremlin.Settings.Toml
import Gremlin.Source
import Gremlin.Step
import Gremlin.StepList
import Gremlin.StepList.Shelf
import Gremlin.Supply
import Gremlin.Text.Blank
import Gremlin.Text.Debug
import Gremlin.Text.Extending
import Gremlin.Text.Position
import Gremlin.Text.Quoted
import Gremlin.Text.Unprintable
import Gremlin.Toml
import Gremlin.Toml.Document
import Gremlin.Toml.Scalar
import Gremlin.Toml.Statement
import Gremlin.Toml.Text
import Gremlin.Traversal
import Gremlin.Traversal.Program
import Gremlin.Value
import Gremlin.Value.Debug
import Gremlin.Value.Json
import Gremlin.Value.Nesting
