import MiniScheme.Main
import MiniScheme.Proofs.Cli.Session
import MiniScheme.Proofs.Code.Defects
import MiniScheme.Proofs.Code.LineTable
import MiniScheme.Proofs.Expr.Brackets
import MiniScheme.Proofs.Interpreter.Formula
import MiniScheme.Proofs.Interpreter.ReadBack
import MiniScheme.Proofs.Interpreter.Spacing
import MiniScheme.Proofs.Machine.Fresh
import MiniScheme.Proofs.Native.Registration
import MiniScheme.Proofs.Token.Respelling
import MiniScheme.Proofs.Token.Stream
