import CMinus.Analysis
import CMinus.Command.Arguments
import CMinus.Command.Run
import CMinus.Diagnostic
import CMinus.Exchange.Decode
import CMinus.Exchange.Encode
import CMinus.Exchange.Outline
import CMinus.Failure
import CMinus.Main
import CMinus.Scoping
import CMinus.Session
import CMinus.Table.Basic
import CMinus.Table.Hash
import CMinus.Table.Listing
import CMinus.Table.Request
import CMinus.Text.Layout
import CMinus.Text.Pad
import CMinus.Text.Quoted
import CMinus.Text.Shown
import CMinus.Toml.Document
import CMinus.Toml.Draft
import CMinus.Toml.Quoted
import CMinus.Toml.Reader
import CMinus.Toml.Scalar
import CMinus.Toml.Value
import CMinus.Tree.Basic
import CMinus.Tree.Build
import CMinus.Tree.Display
import CMinus.Tree.Record
import CMinus.Tree.Walk
import CMinus.Ty
import CMinus.Typing
import CMinus.Proofs.Tree.Order
import CMinus.Proofs.Tree.Shape
import CMinus.Proofs.Table.Lookup
import CMinus.Proofs.Table.Growth
import CMinus.Proofs.Scoping.Steps
import CMinus.Proofs.Scoping.Blocks
import CMinus.Proofs.Scoping.Functions
import CMinus.Proofs.Scoping.Program
import CMinus.Proofs.Scoping.Lexical
import CMinus.Proofs.Scoping.Moments
import CMinus.Proofs.Typing.Verdicts
import CMinus.Proofs.Scoping.Resolution
import CMinus.Proofs.Typing.Returns
import CMinus.Proofs.Reference.Checker
import CMinus.Proofs.Reference.Declarations
import CMinus.Proofs.Reference.Expressions
import CMinus.Proofs.Reference.Agreement
import CMinus.Proofs.Scoping.Balance
import CMinus.Proofs.Table.Access
import CMinus.Proofs.Typing.Total
import CMinus.Proofs.Scoping.Access
import CMinus.Proofs.Typing.Access
import CMinus.Proofs.Typing.Annotation
import CMinus.Proofs.Scoping.Flat
import CMinus.Proofs.Typing.Poison
import CMinus.Proofs.Typing.Outside
import CMinus.Proofs.Typing.Causes
import CMinus.Proofs.Typing.StaleMarks
import CMinus.Proofs.Typing.Renaming
import CMinus.Proofs.Typing.Appending
import CMinus.Proofs.Scoping.Renaming
import CMinus.Proofs.Typing.Equivariance
import CMinus.Proofs.Exchange.RoundTrip
import CMinus.Proofs.Table.Requests
import CMinus.Proofs.Session.Calls
import CMinus.Proofs.Typing.Storage
import CMinus.Proofs.Scoping.Ledger
import CMinus.Proofs.Scoping.References
import CMinus.Proofs.Scoping.Slots
import CMinus.Proofs.Scoping.Signatures
import CMinus.Proofs.Typing.Reports
import CMinus.Proofs.Typing.Undeclared
import CMinus.Proofs.Exchange.Outlines
import CMinus.Proofs.Tree.Removal
import CMinus.Proofs.Typing.Redefinition
import CMinus.Proofs.Tree.Tour
import CMinus.Proofs.Table.Enumeration
import CMinus.Proofs.Command.Outcome
import CMinus.Proofs.Table.Nearest
import CMinus.Proofs.Table.AppendOnly
import CMinus.Proofs.Table.Digits
