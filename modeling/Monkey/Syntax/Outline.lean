import Monkey.Syntax

/-! Programs in a fully bracketed form that shows every node with the line it records. -/
namespace Monkey

/-- The form of a node: its parts in parentheses, single spaces between them. -/
def Outline.node (parts : List String) : String := "(" ++ " ".intercalate parts ++ ")"

open Outline (node)

def Literal.outline : Literal → String
  | .integer n => node ["int", toString n.toInt]
  | .string s => node ["str", "\"" ++ s ++ "\""]
  | .boolean b => node ["bool", if b then "true" else "false"]

mutual

def Expr.outline : Expr → String
  | .name line x => node ["id", x, toString line]
  | .literal l => l.outline
  | .unary line op e => node ["prefix", op.text, toString line, e.outline]
  | .binary line op l r => node ["infix", op.text, toString line, l.outline, r.outline]
  | .conditional c yes none => node ["if", c.outline, node ("block" :: stmtOutlines yes)]
  | .conditional c yes (some no) =>
    node ["if", c.outline, node ("block" :: stmtOutlines yes), node ("block" :: stmtOutlines no)]
  | .function params body => node ["fn", node params, node ("block" :: stmtOutlines body)]
  | .call line f args => node ("call" :: toString line :: f.outline :: exprOutlines args)
  | .array elems => node ("array" :: exprOutlines elems)
  | .hash line pairs => node ("hash" :: toString line :: pairOutlines pairs)
  | .index line e i => node ["index", toString line, e.outline, i.outline]

def Stmt.outline : Stmt → String
  | .binding x e => node ["let", x, e.outline]
  | .returning none => node ["return"]
  | .returning (some e) => node ["return", e.outline]
  | .expression e => node ["expr", e.outline]

def stmtOutlines : List Stmt → List String
  | [] => []
  | s :: ss => s.outline :: stmtOutlines ss

def exprOutlines : List Expr → List String
  | [] => []
  | e :: es => e.outline :: exprOutlines es

def pairOutlines : List (Expr × Expr) → List String
  | [] => []
  | (k, v) :: ps => node [k.outline, v.outline] :: pairOutlines ps

end
end Monkey
