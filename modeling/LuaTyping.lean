import LuaTyping.Builtins
import LuaTyping.Checking.Assignment
import LuaTyping.Checking.Coercion
import LuaTyping.Checking.Context
import LuaTyping.Checking.Expr
import LuaTyping.Checking.Item
import LuaTyping.Checking.Loop
import LuaTyping.Checking.Operator
import LuaTyping.Checking.Program
import LuaTyping.Checking.Stmt
import LuaTyping.Checking.TypeExpr
import LuaTyping.Diagnostic
import LuaTyping.Json.Basic
import LuaTyping.Json.Reader
import LuaTyping.Json.Writer
import LuaTyping.NameMap
import LuaTyping.Options.Basic
import LuaTyping.Options.Text
import LuaTyping.Proofs.Alias.Program
import LuaTyping.Proofs.Alias.Unfold
import LuaTyping.Proofs.Constructor.Entries
import LuaTyping.Proofs.Declarative.Complete
import LuaTyping.Proofs.Declarative.Judgement
import LuaTyping.Proofs.Declarative.Parts
import LuaTyping.Proofs.Declarative.Sound
import LuaTyping.Proofs.Display.Reading
import LuaTyping.Proofs.Erasure.Bare
import LuaTyping.Proofs.Erasure.Expr
import LuaTyping.Proofs.Erasure.Program
import LuaTyping.Proofs.Erasure.Stmt
import LuaTyping.Proofs.Extension.Expr
import LuaTyping.Proofs.Extension.Program
import LuaTyping.Proofs.Extension.Stmt
import LuaTyping.Proofs.Flow.Outcome
import LuaTyping.Proofs.Flow.Program
import LuaTyping.Proofs.Frame.Declare
import LuaTyping.Proofs.Frame.Program
import LuaTyping.Proofs.Frame.Stmt
import LuaTyping.Proofs.Iteration.Protocol
import LuaTyping.Proofs.Known.Item
import LuaTyping.Proofs.Known.Program
import LuaTyping.Proofs.Known.Run
import LuaTyping.Proofs.Known.Types
import LuaTyping.Proofs.Nesting.Expr
import LuaTyping.Proofs.Nesting.Program
import LuaTyping.Proofs.Nesting.Stmt
import LuaTyping.Proofs.Place.Confined
import LuaTyping.Proofs.Place.Expr
import LuaTyping.Proofs.Place.Item
import LuaTyping.Proofs.Place.Stmt
import LuaTyping.Proofs.Place.Tree
import LuaTyping.Proofs.Proper.Assignment
import LuaTyping.Proofs.Proper.Context
import LuaTyping.Proofs.Proper.Expr
import LuaTyping.Proofs.Proper.Item
import LuaTyping.Proofs.Proper.Loop
import LuaTyping.Proofs.Proper.Stmt
import LuaTyping.Proofs.Proper.Ty
import LuaTyping.Proofs.Relocation.Locations
import LuaTyping.Proofs.Relocation.Program
import LuaTyping.Proofs.Repeats.Attempts
import LuaTyping.Proofs.Repeats.Program
import LuaTyping.Proofs.Revision.Expr
import LuaTyping.Proofs.Revision.Item
import LuaTyping.Proofs.Revision.Report
import LuaTyping.Proofs.Revision.Stmt
import LuaTyping.Proofs.Revision.Tree
import LuaTyping.Proofs.Roundtrip.Expr
import LuaTyping.Proofs.Roundtrip.Program
import LuaTyping.Proofs.Roundtrip.Record
import LuaTyping.Proofs.Roundtrip.Stmt
import LuaTyping.Proofs.Sameness.Equivalence
import LuaTyping.Proofs.Sameness.Filling
import LuaTyping.Proofs.Sameness.Parts
import LuaTyping.Proofs.Scalar.Body
import LuaTyping.Proofs.Scalar.Program
import LuaTyping.Proofs.Scoping.History
import LuaTyping.Proofs.Shape.Annotation
import LuaTyping.Proofs.Shape.Module
import LuaTyping.Proofs.Shape.Program
import LuaTyping.Proofs.Shape.Stmt
import LuaTyping.Proofs.Soundness.Assignment
import LuaTyping.Proofs.Soundness.Env
import LuaTyping.Proofs.Soundness.Expr
import LuaTyping.Proofs.Soundness.Judgement
import LuaTyping.Proofs.Soundness.Loop
import LuaTyping.Proofs.Soundness.Program
import LuaTyping.Proofs.Soundness.Stmt
import LuaTyping.Proofs.Soundness.Values
import LuaTyping.Proofs.Stack.Frame
import LuaTyping.Proofs.Stack.Loop
import LuaTyping.Proofs.Stack.Machine
import LuaTyping.Proofs.Stack.Program
import LuaTyping.Proofs.Stack.Stmt
import LuaTyping.Proofs.Summary.Program
import LuaTyping.Proofs.Summary.Reference
import LuaTyping.Proofs.Summary.Stmt
import LuaTyping.Proofs.Text.Diagnostic
import LuaTyping.Proofs.Text.Grammar
import LuaTyping.Proofs.Text.Reading
import LuaTyping.Proofs.Typing.Coercion
import LuaTyping.Proofs.Typing.Inversion
import LuaTyping.Proofs.Typing.Operator
import LuaTyping.Proofs.Typing.Values
import LuaTyping.Proofs.Undeclared.Assignment
import LuaTyping.Proofs.Undeclared.Blur
import LuaTyping.Proofs.Undeclared.Coercion
import LuaTyping.Proofs.Undeclared.Context
import LuaTyping.Proofs.Undeclared.Edit
import LuaTyping.Proofs.Undeclared.Expr
import LuaTyping.Proofs.Undeclared.Item
import LuaTyping.Proofs.Undeclared.Loop
import LuaTyping.Proofs.Undeclared.Operator
import LuaTyping.Proofs.Undeclared.Program
import LuaTyping.Proofs.Undeclared.Quiet
import LuaTyping.Proofs.Undeclared.Stmt
import LuaTyping.Proofs.Uses.Expr
import LuaTyping.Proofs.Uses.Program
import LuaTyping.Proofs.Uses.Stmt
import LuaTyping.Proofs.Values.Alignment
import LuaTyping.Proofs.Yields
import LuaTyping.Report
import LuaTyping.Scopes
import LuaTyping.Source.Decoding
import LuaTyping.Source.Encoding
import LuaTyping.Source.Expr
import LuaTyping.Source.Location
import LuaTyping.Source.Operator
import LuaTyping.Source.Program
import LuaTyping.Source.Stmt
import LuaTyping.Source.TypeExpr
import LuaTyping.Ty.Basic
import LuaTyping.Ty.Display
import LuaTyping.Ty.Equality
import LuaTyping.Ty.Exchange
import LuaTyping.Typed.Encoding
import LuaTyping.Typed.Expr
import LuaTyping.Typed.Program
import LuaTyping.Typed.Stmt
import LuaTyping.Violation
