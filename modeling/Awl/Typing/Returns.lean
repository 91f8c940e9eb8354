import Awl.Syntax.Basic

/-!
# Return paths

`Block.returns` says whether every path through a block ends in a `return`. Blocks, branches with
two sides and switches with a fallback are followed; a loop may run zero times and never counts.
-/

namespace Awl

mutual

/-- Whether every path through a statement returns. In a block of a switch that another one follows,
`next` goes on to a block that is looked at on its own. -/
def Stmt.returns (followed : Bool) : Stmt → Bool
  | .return .. => true
  | .next _ => followed
  | .block _ b => b.returnsIn followed
  | .ifElse _ _ thenBlock (some elseBlock) =>
    thenBlock.returnsIn followed && elseBlock.returnsIn followed
  | .switch _ _ cases (some fallback) => Case.allReturn cases && fallback.returnsIn false
  | _ => false

def Stmt.anyReturns (followed : Bool) : List Stmt → Bool
  | [] => false
  | s :: ss => s.returns followed || Stmt.anyReturns followed ss

def Block.returnsIn (followed : Bool) : Block → Bool
  | .mk _ statements => Stmt.anyReturns followed statements

def Case.allReturn : List Case → Bool
  | [] => true
  | .mk _ _ body :: cases => body.returnsIn true && Case.allReturn cases

end

/-- Whether every path through the body of a function returns. -/
def Block.returns (b : Block) : Bool := b.returnsIn false

end Awl
