import Monkey.Syntax

/-! Programs as source text. Every operator and every index expression stands in its own parentheses, so
the text needs no precedence to be read. -/
namespace Monkey

def Literal.source : Literal → String
  | .integer n => toString n.toInt
  | .string s => "\"" ++ s ++ "\""
  | .boolean true => "true"
  | .boolean false => "false"

/-- The text of a list, its items set apart by commas. -/
def commaSeparated (items : List String) : String := ", ".intercalate items

def bracedStmts : List String → String
  | [] => "\x7b \x7d"
  | stmts => "\x7b " ++ " ".intercalate stmts ++ " \x7d"

mutual

def Expr.source : Expr → String
  | .name _ x => x
  | .literal l => l.source
  | .unary _ op e => "(" ++ op.text ++ e.source ++ ")"
  | .binary _ op l r => "(" ++ l.source ++ " " ++ op.text ++ " " ++ r.source ++ ")"
  | .conditional c yes none => "if (" ++ c.source ++ ") " ++ bracedStmts (stmtSources yes)
  | .conditional c yes (some no) =>
    "if (" ++ c.source ++ ") " ++ bracedStmts (stmtSources yes) ++ " else " ++ bracedStmts (stmtSources no)
  | .function params body => "fn(" ++ commaSeparated params ++ ") " ++ bracedStmts (stmtSources body)
  | .call _ f args => f.source ++ "(" ++ commaSeparated (exprSources args) ++ ")"
  | .array elems => "[" ++ commaSeparated (exprSources elems) ++ "]"
  | .hash _ pairs => "\x7b" ++ commaSeparated (pairSources pairs) ++ "\x7d"
  | .index _ e i => "(" ++ e.source ++ "[" ++ i.source ++ "])"

def Stmt.source : Stmt → String
  | .binding x e => "let " ++ x ++ " = " ++ e.source ++ ";"
  | .returning none => "return;"
  | .returning (some e) => "return " ++ e.source ++ ";"
  | .expression e => e.source ++ ";"

def stmtSources : List Stmt → List String
  | [] => []
  | s :: ss => s.source :: stmtSources ss

def exprSources : List Expr → List String
  | [] => []
  | e :: es => e.source :: exprSources es

def pairSources : List (Expr × Expr) → List String
  | [] => []
  | (k, v) :: ps => (k.source ++ ": " ++ v.source) :: pairSources ps

end

def Block.source (b : Block) : String := bracedStmts (stmtSources b)

def Program.source (p : Program) : String := " ".intercalate (stmtSources p)

end Monkey
