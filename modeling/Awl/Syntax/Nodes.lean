import Awl.Syntax.Basic

/-!
# The nodes of a unit

`SourceUnit.nodes` lists the nodes under whose numbers the checker files its results, in source
order: for each class its fields, methods and constructors, then the functions, then the statements.
Blocks and statements themselves are not listed, they have no results of their own.
-/

namespace Awl

inductive NodeKind where
  | function | constructor | parameter | declaration | target
  | literal | name | enumValue | arrayLiteral | newArray | index | field | call | methodCall | new
  | unary | binary
  deriving DecidableEq, Repr

structure NodeEntry where
  kind : NodeKind
  id : NodeId
  /-- The name whose storage the node declares or uses. -/
  name : Option String := none
  deriving DecidableEq, Repr

mutual

def Expr.nodes : Expr → List NodeEntry
  | .literal n _ => [{ kind := .literal, id := n.id }]
  | .name n x => [{ kind := .name, id := n.id, name := some x }]
  | .enumValue n _ _ => [{ kind := .enumValue, id := n.id }]
  | .arrayLiteral n es => { kind := .arrayLiteral, id := n.id } :: Expr.nodesAll es
  | .newArray n _ l => { kind := .newArray, id := n.id } :: l.nodes
  | .index n a i => { kind := .index, id := n.id } :: a.nodes ++ i.nodes
  | .field n o _ => { kind := .field, id := n.id } :: o.nodes
  | .call n _ es => { kind := .call, id := n.id } :: Expr.nodesAll es
  | .methodCall n r _ es => { kind := .methodCall, id := n.id } :: r.nodes ++ Expr.nodesAll es
  | .new n _ es => { kind := .new, id := n.id } :: Expr.nodesAll es
  | .unary n _ e => { kind := .unary, id := n.id } :: e.nodes
  | .binary n _ l r => { kind := .binary, id := n.id } :: l.nodes ++ r.nodes

def Expr.nodesAll : List Expr → List NodeEntry
  | [] => []
  | e :: es => e.nodes ++ Expr.nodesAll es

end

def Expr.nodesOption : Option Expr → List NodeEntry
  | none => []
  | some e => e.nodes

def Target.nodes : Target → List NodeEntry
  | .name n x => [{ kind := .target, id := n.id, name := some x }]
  | .index n a i => { kind := .target, id := n.id } :: a.nodes ++ i.nodes
  | .field n o _ => { kind := .target, id := n.id } :: o.nodes

def Declaration.nodes (d : Declaration) : List NodeEntry :=
  { kind := .declaration, id := d.node.id, name := some d.name } :: Expr.nodesOption d.initializer

mutual

def Stmt.nodes : Stmt → List NodeEntry
  | .declaration _ d => d.nodes
  | .assignment _ t v => t.nodes ++ v.nodes
  | .ifElse _ c t e => c.nodes ++ t.nodes ++ Block.nodesOption e
  | .whileLoop _ c b => c.nodes ++ b.nodes
  | .doLoop _ b c => b.nodes ++ c.nodes
  | .forLoop _ i c s b => Stmt.nodesOption i ++ c.nodes ++ Stmt.nodesOption s ++ b.nodes
  | .block _ b => b.nodes
  | .switch _ d cs f => d.nodes ++ Case.nodesAll cs ++ Block.nodesOption f
  | .next _ => []
  | .return _ v => Expr.nodesOption v
  | .expression _ e => e.nodes
  | .acquire _ l => l.nodes
  | .release _ l => l.nodes

def Stmt.nodesOption : Option Stmt → List NodeEntry
  | none => []
  | some s => s.nodes

def Stmt.nodesAll : List Stmt → List NodeEntry
  | [] => []
  | s :: ss => s.nodes ++ Stmt.nodesAll ss

def Block.nodes : Block → List NodeEntry
  | .mk _ ss => Stmt.nodesAll ss

def Block.nodesOption : Option Block → List NodeEntry
  | none => []
  | some b => b.nodes

def Case.nodesAll : List Case → List NodeEntry
  | [] => []
  | .mk _ v b :: cs => v.nodes ++ b.nodes ++ Case.nodesAll cs

end

def Parameter.entry (p : Parameter) : NodeEntry :=
  { kind := .parameter, id := p.node.id, name := some p.name }

def FunctionBody.nodes : FunctionBody → List NodeEntry
  | .block b => b.nodes
  | .expression e => e.nodes

def FunctionDef.nodes (f : FunctionDef) : List NodeEntry :=
  { kind := .function, id := f.node.id } :: f.parameters.map Parameter.entry ++ f.body.nodes

def ConstructorDef.nodes (c : ConstructorDef) : List NodeEntry :=
  { kind := .constructor, id := c.node.id } :: c.parameters.map Parameter.entry ++ c.body.nodes

def ClassDef.nodes (c : ClassDef) : List NodeEntry :=
  c.fields.flatMap Declaration.nodes ++ c.methods.flatMap FunctionDef.nodes ++
    c.constructors.flatMap ConstructorDef.nodes

def SourceUnit.nodes (u : SourceUnit) : List NodeEntry :=
  u.classes.flatMap ClassDef.nodes ++ u.functions.flatMap FunctionDef.nodes ++
    Stmt.nodesAll u.statements

end Awl
