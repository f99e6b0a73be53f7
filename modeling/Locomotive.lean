import Locomotive.Compiler
import Locomotive.Host.Folder
import Locomotive.Main
import Locomotive.Tables.Books
import Locomotive.Tables.Report
import Locomotive.Proofs.Emit.Outcome
import Locomotive.Proofs.Expr.Complete
import Locomotive.Proofs.Js.Grammar
import Locomotive.Proofs.Js.Printing
import Locomotive.Proofs.Js.Quote
import Locomotive.Proofs.Emit.Expr
import Locomotive.Proofs.Emit.Reading
import Locomotive.Proofs.Async
import Locomotive.Proofs.Stmt.Balance
import Locomotive.Proofs.Js.Sited
import Locomotive.Proofs.Js.Variable
import Locomotive.Proofs.Tables.Count
import Locomotive.Proofs.Emit.Mention
import Locomotive.Proofs.Emit.History
import Locomotive.Proofs.Layout.Part
import Locomotive.Proofs.Emit.Resolve
import Locomotive.Proofs.Block
import Locomotive.Proofs.Variable
import Locomotive.Proofs.Link
import Locomotive.Proofs.Name
import Locomotive.Proofs.Layout.Line
import Locomotive.Proofs.Comment
import Locomotive.Proofs.Strict
import Locomotive.Proofs.Helper
import Locomotive.Proofs.Restore
import Locomotive.Proofs.Return
import Locomotive.Proofs.Data
import Locomotive.Proofs.Token.Tile
import Locomotive.Proofs.Tables.Consistent
import Locomotive.Proofs.Parse.Alike
import Locomotive.Proofs.Expr.Alike
import Locomotive.Proofs.Stmt.Recast
import Locomotive.Proofs.Stmt.Alike
import Locomotive.Proofs.Program.Alike
import Locomotive.Proofs.Token.Near
import Locomotive.Proofs.Token.Join
import Locomotive.Proofs.Program.Join
import Locomotive.Proofs.Program.Blame
import Locomotive.Proofs.Style
import Locomotive.Proofs.Subroutine.Least
import Locomotive.Proofs.Await
import Locomotive.Proofs.Delivery
import Locomotive.Proofs.Program.Numbered
import Locomotive.Proofs.Program.Progress
import Locomotive.Proofs.Stmt.Number
import Locomotive.Proofs.Token.Value
import Locomotive.Proofs.Buffer
import Locomotive.Proofs.Buffer.Latest
import Locomotive.Proofs.Path
import Locomotive.Proofs.Function
import Locomotive.Proofs.Rounding
import Locomotive.Proofs.Split
import Locomotive.Proofs.Stmt.Binding
import Locomotive.Proofs.Branch
import Locomotive.Proofs.Loop
