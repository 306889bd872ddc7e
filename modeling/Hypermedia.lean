import Hypermedia.Action.Descriptor
import Hypermedia.Action.Instruction
import Hypermedia.Action.Plan
import Hypermedia.Action.TreeHost
import Hypermedia.CommandLine.Arguments
import Hypermedia.CommandLine.Execute
import Hypermedia.CommandLine.Offline
import Hypermedia.CommandLine.Shell
import Hypermedia.Decimal.Binary
import Hypermedia.Decimal.Format
import Hypermedia.Decimal.Read
import Hypermedia.Decimal.Shortest
import Hypermedia.Dict
import Hypermedia.Error
import Hypermedia.Json
import Hypermedia.Main
import Hypermedia.Markup.Build
import Hypermedia.Markup.Component
import Hypermedia.Markup.Event
import Hypermedia.Markup.Node
import Hypermedia.Markup.Page
import Hypermedia.Markup.Reader
import Hypermedia.Network.Request
import Hypermedia.Network.Response
import Hypermedia.Script.Access
import Hypermedia.Script.Activity
import Hypermedia.Script.Builtin
import Hypermedia.Script.Bytes
import Hypermedia.Script.Chunk
import Hypermedia.Script.Convert
import Hypermedia.Script.Directive
import Hypermedia.Script.Evaluate
import Hypermedia.Script.Failure
import Hypermedia.Script.Field
import Hypermedia.Script.Interpreter
import Hypermedia.Script.Library.Argument
import Hypermedia.Script.Library.Base
import Hypermedia.Script.Library.Calendar
import Hypermedia.Script.Library.Initial
import Hypermedia.Script.Library.Math
import Hypermedia.Script.Library.Sequence
import Hypermedia.Script.Library.Session
import Hypermedia.Script.Library.Text
import Hypermedia.Script.Number
import Hypermedia.Script.Path
import Hypermedia.Script.Pattern
import Hypermedia.Script.Scope
import Hypermedia.Script.Service
import Hypermedia.Script.Syntax
import Hypermedia.Script.Table
import Hypermedia.Script.Token
import Hypermedia.Script.Value
import Hypermedia.Script.World
import Hypermedia.Session.Answer
import Hypermedia.Session.Config
import Hypermedia.Session.Destination
import Hypermedia.Session.Inline
import Hypermedia.Session.Navigation
import Hypermedia.Session.Schedule
import Hypermedia.Session.Loop
import Hypermedia.Session.Scripting
import Hypermedia.Session.State
import Hypermedia.Session.View
import Hypermedia.Style.Block
import Hypermedia.Style.RuleBook
import Hypermedia.Style.Value
import Hypermedia.Text.Cut
import Hypermedia.Text.Margin
import Hypermedia.Text.Placeholder
import Hypermedia.Url.Basic
import Hypermedia.Url.Encode
import Hypermedia.Url.Host
import Hypermedia.Url.Parse
import Hypermedia.Url.Punycode
import Hypermedia.Widget.Attribute
import Hypermedia.Widget.Basic
import Hypermedia.Widget.Blueprint
import Hypermedia.Widget.Contents
import Hypermedia.Widget.Kind
import Hypermedia.Widget.Match
import Hypermedia.Widget.Selector
import Hypermedia.Widget.Tree
import Hypermedia.Proofs.Tree.Links
import Hypermedia.Proofs.Tree.Edits
import Hypermedia.Proofs.Tree.Run
import Hypermedia.Proofs.Tree.Children
import Hypermedia.Proofs.Tree.Beside
import Hypermedia.Proofs.Tree.Layers
import Hypermedia.Proofs.Tree.Failure
import Hypermedia.Proofs.Effect
import Hypermedia.Proofs.Markup.Growth
import Hypermedia.Proofs.Session.Consistent
import Hypermedia.Proofs.Session.Scripting
import Hypermedia.Proofs.Session.Navigation
import Hypermedia.Proofs.Session.Answer
import Hypermedia.Proofs.Session.Turns
import Hypermedia.Proofs.Session.Stale
import Hypermedia.Proofs.Markup.Elements
import Hypermedia.Proofs.Session.Inlining
import Hypermedia.Proofs.Session.Late
import Hypermedia.Proofs.Tree.Adrift
import Hypermedia.Proofs.Tree.Extension
import Hypermedia.Proofs.Markup.Fragments
import Hypermedia.Proofs.Script.Requests
import Hypermedia.Proofs.Session.Requests
import Hypermedia.Proofs.Tree.Scripted
import Hypermedia.Proofs.Action.Aims
import Hypermedia.Proofs.Session.Ownership
import Hypermedia.Proofs.Session.PageChange
import Hypermedia.Proofs.Session.Placement
import Hypermedia.Proofs.Session.Sound
import Hypermedia.Proofs.Session.Owned
import Hypermedia.Proofs.Session.Staging
import Hypermedia.Proofs.Session.Rollback
import Hypermedia.Proofs.Session.Lifetimes
import Hypermedia.Proofs.Script.Nesting
import Hypermedia.Proofs.Script.Writes
import Hypermedia.Proofs.Script.Listeners
import Hypermedia.Proofs.Markup.Compiled
import Hypermedia.Proofs.Script.Chains
import Hypermedia.Proofs.Tree.Scoped
import Hypermedia.Proofs.Session.Abiding
import Hypermedia.Proofs.Session.Bindings
import Hypermedia.Proofs.Session.Surroundings
import Hypermedia.Proofs.Markup.Macros
import Hypermedia.Proofs.Markup.Streams
import Hypermedia.Proofs.Text.Words
import Hypermedia.Proofs.Text.Lines
import Hypermedia.Proofs.Action.Spelling
import Hypermedia.Proofs.Action.Trace
import Hypermedia.Proofs.Action.Discipline
import Hypermedia.Proofs.Style.Blocks
import Hypermedia.Proofs.Tree.Matches
import Hypermedia.Proofs.Style.Isolation
import Hypermedia.Proofs.Session.Travel
import Hypermedia.Proofs.Session.Trail
import Hypermedia.Proofs.Session.Halted
import Hypermedia.Proofs.Script.Confined
import Hypermedia.Proofs.Script.Safe
import Hypermedia.Proofs.Script.Operations
import Hypermedia.Proofs.Script.Evaluation
import Hypermedia.Proofs.Script.Builtins
import Hypermedia.Proofs.Script.Values
import Hypermedia.Proofs.Script.Confinement
import Hypermedia.Proofs.Tree.Enclosed
import Hypermedia.Proofs.Tree.Parts
import Hypermedia.Proofs.Tree.Assembly
import Hypermedia.Proofs.Tree.Bare
import Hypermedia.Proofs.Markup.Apart
import Hypermedia.Proofs.Script.Owners
import Hypermedia.Proofs.Session.Secluded
import Hypermedia.Proofs.Session.Reticent
import Hypermedia.Proofs.Session.Scoping
import Hypermedia.Proofs.Session.Readying
import Hypermedia.Proofs.Session.Awaiting
import Hypermedia.Proofs.Session.BoundOnce
import Hypermedia.Proofs.Style.Declared
import Hypermedia.Proofs.Text.Margins
import Hypermedia.Proofs.Style.Layout
import Hypermedia.Proofs.Tree.OnlyChild
import Hypermedia.Proofs.Tree.Wired
import Hypermedia.Proofs.Lists
import Hypermedia.Proofs.Tree.Search
import Hypermedia.Proofs.Widget.Grammar
import Hypermedia.Proofs.Style.Cascade
import Hypermedia.Proofs.Widget.Naming
import Hypermedia.Proofs.Markup.Parameters
import Hypermedia.Proofs.Markup.Reordering
import Hypermedia.Proofs.Markup.Slots
import Hypermedia.Proofs.Markup.Depth
import Hypermedia.Proofs.Session.Sources
import Hypermedia.Proofs.Session.Origins
import Hypermedia.Proofs.Text.Templates
import Hypermedia.Proofs.Script.Interpolation
import Hypermedia.Proofs.Session.Loading
import Hypermedia.Proofs.Markup.Declarations
import Hypermedia.Proofs.Markup.Descriptors
import Hypermedia.Proofs.Session.Preserving
import Hypermedia.Proofs.Session.Rewiring
import Hypermedia.Proofs.Session.Events
import Hypermedia.Proofs.Session.Wiring
import Hypermedia.Proofs.Session.Idle
import Hypermedia.Proofs.Session.Watermark
import Hypermedia.Proofs.Script.Styles
import Hypermedia.Proofs.Script.Settling
import Hypermedia.Proofs.Script.Libraries
import Hypermedia.Proofs.Style.Values
import Hypermedia.Proofs.Style.Shifted
import Hypermedia.Proofs.Style.Faults
import Hypermedia.Proofs.Tree.Walks
import Hypermedia.Proofs.Session.Retracing
import Hypermedia.Proofs.Script.Snippets
