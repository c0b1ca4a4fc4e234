import Monkey.Proofs.Words
import Monkey.Syntax.Printer

/-! Trees whose recorded lines are others. Lines are in no text of a tree, and trees that differ in lines only
are built the same way. -/
namespace Monkey

/-! A tree with `g` applied to every line it records. -/

mutual

def Expr.mapLines (g : Nat → Nat) : Expr → Expr
  | .name line x => .name (g line) x
  | .literal l => .literal l
  | .unary line op e => .unary (g line) op (e.mapLines g)
  | .binary line op l r => .binary (g line) op (l.mapLines g) (r.mapLines g)
  | .conditional c yes none => .conditional (c.mapLines g) (stmtsMapLines g yes) none
  | .conditional c yes (some no) => .conditional (c.mapLines g) (stmtsMapLines g yes) (some (stmtsMapLines g no))
  | .function params body => .function params (stmtsMapLines g body)
  | .call line f args => .call (g line) (f.mapLines g) (exprsMapLines g args)
  | .array elems => .array (exprsMapLines g elems)
  | .hash line pairs => .hash (g line) (pairsMapLines g pairs)
  | .index line e i => .index (g line) (e.mapLines g) (i.mapLines g)

def Stmt.mapLines (g : Nat → Nat) : Stmt → Stmt
  | .binding x e => .binding x (e.mapLines g)
  | .returning none => .returning none
  | .returning (some e) => .returning (some (e.mapLines g))
  | .expression e => .expression (e.mapLines g)

def stmtsMapLines (g : Nat → Nat) : List Stmt → List Stmt
  | [] => []
  | s :: ss => s.mapLines g :: stmtsMapLines g ss

def exprsMapLines (g : Nat → Nat) : List Expr → List Expr
  | [] => []
  | e :: es => e.mapLines g :: exprsMapLines g es

def pairsMapLines (g : Nat → Nat) : List (Expr × Expr) → List (Expr × Expr)
  | [] => []
  | (k, v) :: ps => (k.mapLines g, v.mapLines g) :: pairsMapLines g ps

end

variable {g h : Nat → Nat}

theorem stmtsMapLines_append (ss tt : List Stmt) :
    stmtsMapLines g (ss ++ tt) = stmtsMapLines g ss ++ stmtsMapLines g tt := by
  induction ss with
  | nil => rfl
  | cons s ss ih => exact congrArg (s.mapLines g :: ·) ih

/-! Mapping with one function after the other. -/

mutual

theorem Expr.mapLines_mapLines : ∀ e : Expr, (e.mapLines g).mapLines h = e.mapLines (h ∘ g)
  | .name _ _ | .literal _ => rfl
  | .unary _ _ e => by simp only [Expr.mapLines, e.mapLines_mapLines, Function.comp]
  | .binary _ _ l r => by simp only [Expr.mapLines, l.mapLines_mapLines, r.mapLines_mapLines, Function.comp]
  | .conditional c yes none => by
    simp only [Expr.mapLines, c.mapLines_mapLines, stmtsMapLines_stmtsMapLines yes]
  | .conditional c yes (some no) => by
    simp only [Expr.mapLines, c.mapLines_mapLines, stmtsMapLines_stmtsMapLines yes,
      stmtsMapLines_stmtsMapLines no]
  | .function _ body => by simp only [Expr.mapLines, stmtsMapLines_stmtsMapLines body]
  | .call _ f args => by
    simp only [Expr.mapLines, f.mapLines_mapLines, exprsMapLines_exprsMapLines args, Function.comp]
  | .array elems => by simp only [Expr.mapLines, exprsMapLines_exprsMapLines elems]
  | .hash _ pairs => by simp only [Expr.mapLines, pairsMapLines_pairsMapLines pairs, Function.comp]
  | .index _ e i => by simp only [Expr.mapLines, e.mapLines_mapLines, i.mapLines_mapLines, Function.comp]

theorem Stmt.mapLines_mapLines : ∀ s : Stmt, (s.mapLines g).mapLines h = s.mapLines (h ∘ g)
  | .binding _ e => by simp only [Stmt.mapLines, e.mapLines_mapLines]
  | .returning none => rfl
  | .returning (some e) => by simp only [Stmt.mapLines, e.mapLines_mapLines]
  | .expression e => by simp only [Stmt.mapLines, e.mapLines_mapLines]

theorem stmtsMapLines_stmtsMapLines :
    ∀ ss : List Stmt, stmtsMapLines h (stmtsMapLines g ss) = stmtsMapLines (h ∘ g) ss
  | [] => rfl
  | s :: ss => by simp only [stmtsMapLines, s.mapLines_mapLines, stmtsMapLines_stmtsMapLines ss]

theorem exprsMapLines_exprsMapLines :
    ∀ es : List Expr, exprsMapLines h (exprsMapLines g es) = exprsMapLines (h ∘ g) es
  | [] => rfl
  | e :: es => by simp only [exprsMapLines, e.mapLines_mapLines, exprsMapLines_exprsMapLines es]

theorem pairsMapLines_pairsMapLines :
    ∀ ps : List (Expr × Expr), pairsMapLines h (pairsMapLines g ps) = pairsMapLines (h ∘ g) ps
  | [] => rfl
  | (k, v) :: ps => by
    simp only [pairsMapLines, k.mapLines_mapLines, v.mapLines_mapLines, pairsMapLines_pairsMapLines ps]

end

/-! Lines that are mapped to themselves. -/

mutual

theorem Expr.mapLines_id : ∀ e : Expr, e.mapLines id = e
  | .name _ _ | .literal _ => rfl
  | .unary _ _ e => by simp only [Expr.mapLines, e.mapLines_id, id]
  | .binary _ _ l r => by simp only [Expr.mapLines, l.mapLines_id, r.mapLines_id, id]
  | .conditional c yes none => by simp only [Expr.mapLines, c.mapLines_id, stmtsMapLines_id yes]
  | .conditional c yes (some no) => by
    simp only [Expr.mapLines, c.mapLines_id, stmtsMapLines_id yes, stmtsMapLines_id no]
  | .function _ body => by simp only [Expr.mapLines, stmtsMapLines_id body]
  | .call _ f args => by simp only [Expr.mapLines, f.mapLines_id, exprsMapLines_id args, id]
  | .array elems => by simp only [Expr.mapLines, exprsMapLines_id elems]
  | .hash _ pairs => by simp only [Expr.mapLines, pairsMapLines_id pairs, id]
  | .index _ e i => by simp only [Expr.mapLines, e.mapLines_id, i.mapLines_id, id]

theorem Stmt.mapLines_id : ∀ s : Stmt, s.mapLines id = s
  | .binding _ e => by simp only [Stmt.mapLines, e.mapLines_id]
  | .returning none => rfl
  | .returning (some e) => by simp only [Stmt.mapLines, e.mapLines_id]
  | .expression e => by simp only [Stmt.mapLines, e.mapLines_id]

theorem stmtsMapLines_id : ∀ ss : List Stmt, stmtsMapLines id ss = ss
  | [] => rfl
  | s :: ss => by simp only [stmtsMapLines, s.mapLines_id, stmtsMapLines_id ss]

theorem exprsMapLines_id : ∀ es : List Expr, exprsMapLines id es = es
  | [] => rfl
  | e :: es => by simp only [exprsMapLines, e.mapLines_id, exprsMapLines_id es]

theorem pairsMapLines_id : ∀ ps : List (Expr × Expr), pairsMapLines id ps = ps
  | [] => rfl
  | (k, v) :: ps => by simp only [pairsMapLines, k.mapLines_id, v.mapLines_id, pairsMapLines_id ps]

end

/-! One line for all. -/

mutual

theorem Expr.mapLines_one : ∀ e : Expr, e.mapLines (fun _ => 1) = e.onFirstLine
  | .name _ _ | .literal _ => rfl
  | .unary _ _ e => by simp only [Expr.mapLines, Expr.onFirstLine, e.mapLines_one]
  | .binary _ _ l r => by simp only [Expr.mapLines, Expr.onFirstLine, l.mapLines_one, r.mapLines_one]
  | .conditional c yes none => by
    simp only [Expr.mapLines, Expr.onFirstLine, c.mapLines_one, stmtsMapLines_one yes]
  | .conditional c yes (some no) => by
    simp only [Expr.mapLines, Expr.onFirstLine, c.mapLines_one, stmtsMapLines_one yes, stmtsMapLines_one no]
  | .function _ body => by simp only [Expr.mapLines, Expr.onFirstLine, stmtsMapLines_one body]
  | .call _ f args => by simp only [Expr.mapLines, Expr.onFirstLine, f.mapLines_one, exprsMapLines_one args]
  | .array elems => by simp only [Expr.mapLines, Expr.onFirstLine, exprsMapLines_one elems]
  | .hash _ pairs => by simp only [Expr.mapLines, Expr.onFirstLine, pairsMapLines_one pairs]
  | .index _ e i => by simp only [Expr.mapLines, Expr.onFirstLine, e.mapLines_one, i.mapLines_one]

theorem Stmt.mapLines_one : ∀ s : Stmt, s.mapLines (fun _ => 1) = s.onFirstLine
  | .binding _ e => by simp only [Stmt.mapLines, Stmt.onFirstLine, e.mapLines_one]
  | .returning none => rfl
  | .returning (some e) => by simp only [Stmt.mapLines, Stmt.onFirstLine, e.mapLines_one]
  | .expression e => by simp only [Stmt.mapLines, Stmt.onFirstLine, e.mapLines_one]

theorem stmtsMapLines_one : ∀ ss : List Stmt, stmtsMapLines (fun _ => 1) ss = stmtsOnFirstLine ss
  | [] => rfl
  | s :: ss => by simp only [stmtsMapLines, stmtsOnFirstLine, s.mapLines_one, stmtsMapLines_one ss]

theorem exprsMapLines_one : ∀ es : List Expr, exprsMapLines (fun _ => 1) es = exprsOnFirstLine es
  | [] => rfl
  | e :: es => by simp only [exprsMapLines, exprsOnFirstLine, e.mapLines_one, exprsMapLines_one es]

theorem pairsMapLines_one :
    ∀ ps : List (Expr × Expr), pairsMapLines (fun _ => 1) ps = pairsOnFirstLine ps
  | [] => rfl
  | (k, v) :: ps => by
    simp only [pairsMapLines, pairsOnFirstLine, k.mapLines_one, v.mapLines_one, pairsMapLines_one ps]

end

/-! No line is in the text of a tree. -/

mutual

theorem Expr.source_mapLines : ∀ e : Expr, (e.mapLines g).source = e.source
  | .name _ _ | .literal _ => rfl
  | .unary _ _ e => by simp only [Expr.mapLines, Expr.source, e.source_mapLines]
  | .binary _ _ l r => by simp only [Expr.mapLines, Expr.source, l.source_mapLines, r.source_mapLines]
  | .conditional c yes none => by
    simp only [Expr.mapLines, Expr.source, c.source_mapLines, stmtSources_mapLines yes]
  | .conditional c yes (some no) => by
    simp only [Expr.mapLines, Expr.source, c.source_mapLines, stmtSources_mapLines yes, stmtSources_mapLines no]
  | .function _ body => by simp only [Expr.mapLines, Expr.source, stmtSources_mapLines body]
  | .call _ f args => by simp only [Expr.mapLines, Expr.source, f.source_mapLines, exprSources_mapLines args]
  | .array elems => by simp only [Expr.mapLines, Expr.source, exprSources_mapLines elems]
  | .hash _ pairs => by simp only [Expr.mapLines, Expr.source, pairSources_mapLines pairs]
  | .index _ e i => by simp only [Expr.mapLines, Expr.source, e.source_mapLines, i.source_mapLines]

theorem Stmt.source_mapLines : ∀ s : Stmt, (s.mapLines g).source = s.source
  | .binding _ e => by simp only [Stmt.mapLines, Stmt.source, e.source_mapLines]
  | .returning none => rfl
  | .returning (some e) => by simp only [Stmt.mapLines, Stmt.source, e.source_mapLines]
  | .expression e => by simp only [Stmt.mapLines, Stmt.source, e.source_mapLines]

theorem stmtSources_mapLines : ∀ ss : List Stmt, stmtSources (stmtsMapLines g ss) = stmtSources ss
  | [] => rfl
  | s :: ss => by simp only [stmtsMapLines, stmtSources, s.source_mapLines, stmtSources_mapLines ss]

theorem exprSources_mapLines : ∀ es : List Expr, exprSources (exprsMapLines g es) = exprSources es
  | [] => rfl
  | e :: es => by simp only [exprsMapLines, exprSources, e.source_mapLines, exprSources_mapLines es]

theorem pairSources_mapLines :
    ∀ ps : List (Expr × Expr), pairSources (pairsMapLines g ps) = pairSources ps
  | [] => rfl
  | (k, v) :: ps => by
    simp only [pairsMapLines, pairSources, k.source_mapLines, v.source_mapLines, pairSources_mapLines ps]

end

/-- Blocks that differ in lines only have the same text. -/
theorem source_eq_of_mapLines_eq {b c : Block} (hb : stmtsMapLines g b = stmtsMapLines g c) :
    Block.source b = Block.source c := by
  rw [Block.source, Block.source, ← stmtSources_mapLines (g := g) b, hb, stmtSources_mapLines]

/-! Two trees that differ in lines only have the same constructor and, part by part, differ in lines only. -/

inductive Expr.Twin (g : Nat → Nat) : Expr → Expr → Prop where
  | name {line line' : Nat} {x : String} : g line = g line' → Twin g (.name line x) (.name line' x)
  | literal {l : Literal} : Twin g (.literal l) (.literal l)
  | unary {line line' : Nat} {op : PrefixOp} {e e' : Expr} :
      g line = g line' → e.mapLines g = e'.mapLines g → Twin g (.unary line op e) (.unary line' op e')
  | binary {line line' : Nat} {op : InfixOp} {l l' r r' : Expr} :
      g line = g line' → l.mapLines g = l'.mapLines g → r.mapLines g = r'.mapLines g →
        Twin g (.binary line op l r) (.binary line' op l' r')
  | ifThen {c c' : Expr} {yes yes' : Block} :
      c.mapLines g = c'.mapLines g → stmtsMapLines g yes = stmtsMapLines g yes' →
        Twin g (.conditional c yes none) (.conditional c' yes' none)
  | ifThenElse {c c' : Expr} {yes yes' no no' : Block} :
      c.mapLines g = c'.mapLines g → stmtsMapLines g yes = stmtsMapLines g yes' →
        stmtsMapLines g no = stmtsMapLines g no' →
          Twin g (.conditional c yes (some no)) (.conditional c' yes' (some no'))
  | function {params : List String} {body body' : Block} :
      stmtsMapLines g body = stmtsMapLines g body' → Twin g (.function params body) (.function params body')
  | call {line line' : Nat} {f f' : Expr} {args args' : List Expr} :
      g line = g line' → f.mapLines g = f'.mapLines g → exprsMapLines g args = exprsMapLines g args' →
        Twin g (.call line f args) (.call line' f' args')
  | array {elems elems' : List Expr} :
      exprsMapLines g elems = exprsMapLines g elems' → Twin g (.array elems) (.array elems')
  | hash {line line' : Nat} {ps ps' : List (Expr × Expr)} :
      g line = g line' → pairsMapLines g ps = pairsMapLines g ps' → Twin g (.hash line ps) (.hash line' ps')
  | index {line line' : Nat} {e e' i i' : Expr} :
      g line = g line' → e.mapLines g = e'.mapLines g → i.mapLines g = i'.mapLines g →
        Twin g (.index line e i) (.index line' e' i')

inductive Stmt.Twin (g : Nat → Nat) : Stmt → Stmt → Prop where
  | binding {x : String} {e e' : Expr} : e.mapLines g = e'.mapLines g → Twin g (.binding x e) (.binding x e')
  | returnNothing : Twin g (.returning none) (.returning none)
  | returnValue {e e' : Expr} :
      e.mapLines g = e'.mapLines g → Twin g (.returning (some e)) (.returning (some e'))
  | expression {e e' : Expr} : e.mapLines g = e'.mapLines g → Twin g (.expression e) (.expression e')

theorem Expr.twin_of_mapLines_eq {e e' : Expr} (he : e.mapLines g = e'.mapLines g) : e.Twin g e' := by
  cases e with
  | name l x =>
    cases e' with
    | name l' x' =>
      obtain ⟨hl, rfl⟩ := Expr.name.inj he
      exact .name hl
    | conditional _ _ no => cases no <;> cases he
    | _ => cases he
  | literal l =>
    cases e' with
    | literal l' =>
      obtain rfl := Expr.literal.inj he
      exact .literal
    | conditional _ _ no => cases no <;> cases he
    | _ => cases he
  | unary l op e =>
    cases e' with
    | unary l' op' e' =>
      obtain ⟨hl, rfl, hoperand⟩ := Expr.unary.inj he
      exact .unary hl hoperand
    | conditional _ _ no => cases no <;> cases he
    | _ => cases he
  | binary l op a b =>
    cases e' with
    | binary l' op' a' b' =>
      obtain ⟨hl, rfl, ha, hb⟩ := Expr.binary.inj he
      exact .binary hl ha hb
    | conditional _ _ no => cases no <;> cases he
    | _ => cases he
  | conditional c yes no =>
    cases e' with
    | conditional c' yes' no' =>
      cases no <;> cases no'
      · obtain ⟨hc, hyes, -⟩ := Expr.conditional.inj he
        exact .ifThen hc hyes
      · exact nomatch (Expr.conditional.inj he).2.2
      · exact nomatch (Expr.conditional.inj he).2.2
      · obtain ⟨hc, hyes, hno⟩ := Expr.conditional.inj he
        exact .ifThenElse hc hyes (Option.some.inj hno)
    | _ => cases no <;> cases he
  | function params body =>
    cases e' with
    | function params' body' =>
      obtain ⟨rfl, hbody⟩ := Expr.function.inj he
      exact .function hbody
    | conditional _ _ no => cases no <;> cases he
    | _ => cases he
  | call l f args =>
    cases e' with
    | call l' f' args' =>
      obtain ⟨hl, hf, hargs⟩ := Expr.call.inj he
      exact .call hl hf hargs
    | conditional _ _ no => cases no <;> cases he
    | _ => cases he
  | array elems =>
    cases e' with
    | array elems' => exact .array (Expr.array.inj he)
    | conditional _ _ no => cases no <;> cases he
    | _ => cases he
  | hash l ps =>
    cases e' with
    | hash l' ps' =>
      obtain ⟨hl, hps⟩ := Expr.hash.inj he
      exact .hash hl hps
    | conditional _ _ no => cases no <;> cases he
    | _ => cases he
  | index l b i =>
    cases e' with
    | index l' b' i' =>
      obtain ⟨hl, hb, hi⟩ := Expr.index.inj he
      exact .index hl hb hi
    | conditional _ _ no => cases no <;> cases he
    | _ => cases he

theorem Stmt.twin_of_mapLines_eq {s s' : Stmt} (hs : s.mapLines g = s'.mapLines g) : s.Twin g s' := by
  cases s with
  | binding x e =>
    cases s' with
    | binding x' e' =>
      obtain ⟨rfl, hvalue⟩ := Stmt.binding.inj hs
      exact .binding hvalue
    | returning e? => cases e? <;> cases hs
    | expression e' => cases hs
  | returning e? =>
    cases s' with
    | returning e?' =>
      cases e? <;> cases e?'
      · exact .returnNothing
      · cases hs
      · cases hs
      · exact .returnValue (Option.some.inj (Stmt.returning.inj hs))
    | _ => cases e? <;> cases hs
  | expression e =>
    cases s' with
    | expression e' => exact .expression (Stmt.expression.inj hs)
    | returning e? => cases e? <;> cases hs
    | binding x' e' => cases hs

end Monkey
