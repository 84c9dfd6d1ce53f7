import TwoTier.Block
import TwoTier.Boundary
import TwoTier.Builtin
import TwoTier.Campaign
import TwoTier.CommandLine
import TwoTier.Compile
import TwoTier.CompileError
import TwoTier.Decimal.Layout
import TwoTier.Decimal.Reading
import TwoTier.Decimal.Shortest
import TwoTier.Diagnostic
import TwoTier.Digest
import TwoTier.Evaluation.Basic
import TwoTier.Evaluation.Form
import TwoTier.Evaluation.Literal
import TwoTier.Expr.Basic
import TwoTier.Expr.Build
import TwoTier.Expr.Check
import TwoTier.Expr.Fresh
import TwoTier.Expr.Json
import TwoTier.Expr.Subst
import TwoTier.Expr.Text
import TwoTier.Form.Basic
import TwoTier.Form.Check
import TwoTier.Form.Json
import TwoTier.Form.Synthesis
import TwoTier.Intrinsic
import TwoTier.Json.Basic
import TwoTier.Json.Reader
import TwoTier.Json.Writer
import TwoTier.Main
import TwoTier.Pass
import TwoTier.Proofs.Admission
import TwoTier.Proofs.Arithmetic
import TwoTier.Proofs.Compile.Broadcast
import TwoTier.Proofs.Compile.DistributeAggregate
import TwoTier.Proofs.Compile.MapReduce
import TwoTier.Proofs.Ending
import TwoTier.Proofs.Factoring
import TwoTier.Proofs.Forms
import TwoTier.Proofs.Fundamental
import TwoTier.Proofs.Grouping
import TwoTier.Proofs.Independence
import TwoTier.Proofs.Induction
import TwoTier.Proofs.Initialization
import TwoTier.Proofs.Itemwise
import TwoTier.Proofs.Lowering
import TwoTier.Proofs.Meaning
import TwoTier.Proofs.Names
import TwoTier.Proofs.Normalization
import TwoTier.Proofs.Order
import TwoTier.Proofs.Outcome
import TwoTier.Proofs.Replacement
import TwoTier.Proofs.Reports
import TwoTier.Proofs.Restriction
import TwoTier.Proofs.Runs
import TwoTier.Proofs.SecureArithmetic
import TwoTier.Proofs.SecureSum
import TwoTier.Proofs.Serialization.Forms
import TwoTier.Proofs.Session
import TwoTier.Proofs.Similar
import TwoTier.Proofs.Slicing
import TwoTier.Proofs.SlotScope
import TwoTier.Proofs.Soundness
import TwoTier.Proofs.Source.Annotations
import TwoTier.Proofs.Source.Printing
import TwoTier.Proofs.Source.Tiling
import TwoTier.Proofs.Source.WellTyped
import TwoTier.Proofs.Steps
import TwoTier.Proofs.Substitution
import TwoTier.Proofs.Synthesis.Preservation
import TwoTier.Proofs.Synthesis.Recompile
import TwoTier.Proofs.Synthesis.Total
import TwoTier.Proofs.Tiers
import TwoTier.Proofs.Typing
import TwoTier.Provenance
import TwoTier.Release
import TwoTier.Round.Factoring.Basic
import TwoTier.Round.Factoring.Broadcast
import TwoTier.Round.Factoring.DistributeAggregate
import TwoTier.Round.Factoring.MapReduce
import TwoTier.Round.Parts
import TwoTier.Round.Slice
import TwoTier.Round.View
import TwoTier.Session
import TwoTier.Source.Elaboration
import TwoTier.Source.Lexer
import TwoTier.Source.Parser
import TwoTier.Source.Span
import TwoTier.Source.Token
import TwoTier.Source.Tree
import TwoTier.Template
import TwoTier.Text.Glyph
import TwoTier.Text.Quoted
import TwoTier.Tier
import TwoTier.Tier.Tree
import TwoTier.Trace
import TwoTier.Ty.Assignable
import TwoTier.Ty.Basic
import TwoTier.Ty.Json
import TwoTier.Value.Arithmetic
import TwoTier.Value.Basic
import TwoTier.Value.Fault
import TwoTier.Value.SecureSum
import TwoTier.Whole
