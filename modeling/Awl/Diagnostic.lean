import Awl.Text.Styled
import Awl.Types
import Awl.Syntax.Basic

/-!
# Diagnostics

What the checker reports about a program. A `Problem` is the cause with what is needed to describe
it; `Problem.kind` sorts causes into the kinds that users see, and `Problem.message` gives the text.
-/

namespace Awl

inductive DiagnosticKind where
  | redeclaration
  | undeclared
  | typeMismatch
  | unknownType
  | duplicateTypeDefinition
  | duplicateFunction
  | undeclaredFunction
  | noMatchingOverload
  | nonBoolCondition
  | invalidOperands
  | nonIntIndex
  | nonIntLength
  | notAnArray
  | notAClass
  | unknownField
  | unknownEnumValue
  | emptyArrayLiteral
  | caseTypeMismatch
  | misplacedNext
  | notALock
  | lockOutsideGlobalScope
  | missingReturn
  | returnOutsideFunction
  | invalidThreadFunction
  | invalidVoid
  deriving DecidableEq, Repr

def DiagnosticKind.text : DiagnosticKind → String
  | .redeclaration => "redeclaration"
  | .undeclared => "undeclared"
  | .typeMismatch => "type-mismatch"
  | .unknownType => "unknown-type"
  | .duplicateTypeDefinition => "duplicate-type-definition"
  | .duplicateFunction => "duplicate-function"
  | .undeclaredFunction => "undeclared-function"
  | .noMatchingOverload => "no-matching-overload"
  | .nonBoolCondition => "non-bool-condition"
  | .invalidOperands => "invalid-operands"
  | .nonIntIndex => "non-int-index"
  | .nonIntLength => "non-int-length"
  | .notAnArray => "not-an-array"
  | .notAClass => "not-a-class"
  | .unknownField => "unknown-field"
  | .unknownEnumValue => "unknown-enum-value"
  | .emptyArrayLiteral => "empty-array-literal"
  | .caseTypeMismatch => "case-type-mismatch"
  | .misplacedNext => "misplaced-next"
  | .notALock => "not-a-lock"
  | .lockOutsideGlobalScope => "lock-outside-global-scope"
  | .missingReturn => "missing-return"
  | .returnOutsideFunction => "return-outside-function"
  | .invalidThreadFunction => "invalid-thread-function"
  | .invalidVoid => "invalid-void"

/-- What a value is needed for. -/
inductive Purpose where
  | initializer (name : String)
  | assignment
  | field (name : String) (type : Ty)
  | returnValue (function : String)
  | expressionBody (function : String)

def Purpose.text : Purpose → String
  | .initializer x => "the initializer of `" ++ x ++ "`"
  | .assignment => "the assignment target"
  | .field x type => "field `" ++ x ++ "` of type " ++ type.text
  | .returnValue f => "the return value of `" ++ f ++ "`"
  | .expressionBody f => "return type of `" ++ f ++ "`"

/-- Statements with a condition. -/
inductive Construct where
  | ifElse | whileLoop | doLoop | forLoop
  deriving DecidableEq, Repr

def Construct.text : Construct → String
  | .ifElse => "if"
  | .whileLoop => "while"
  | .doLoop => "do"
  | .forLoop => "for"

inductive LockOperation where
  | acquire | release
  deriving DecidableEq, Repr

def LockOperation.text : LockOperation → String
  | .acquire => "acquire"
  | .release => "release"

inductive Problem where
  -- Types and declarations
  | typeRedefined (error : DuplicateType)
  | unknownType (name : String)
  | unknownEnum (name : String)
  | unknownClass (name : String)
  | voidVariable (name : String)
  | voidParameter (name : String)
  | fieldOfType (name : String) (type : Ty)
  | localLock (name : String)
  | lockParameter (name : String)
  | lockResult (function : String)
  | redeclared (name : String)
  | fieldRedeclared (field className : String)
  | methodNamedLikeField (method className : String)
  | parameterRedeclared (name : String)
  -- Functions
  | functionRedefined (name : String) (signature : Signature)
  | threadMethod (name : String)
  | threadSignature (name : String)
  | missingReturn (function : String)
  | returnOutsideFunction
  | valueReturned (function : String)
  | noValueReturned (function : String) (result : Ty)
  -- Statements
  | mismatch (expected : Ty) (purpose : Purpose) (found : Ty)
  | assignmentToUndeclared (name : String)
  | condition (construct : Construct) (found : Ty)
  | caseType (value discriminant : Ty)
  /-- The flag is whether the statement is in the last block of a switch. -/
  | misplacedNext (inLast : Bool)
  | notALock (operation : LockOperation) (found : Ty)
  | computedLock (operation : LockOperation)
  -- Expressions
  | undeclared (name : String)
  | methodAsValue (name : String)
  | unknownMember (enumeration member : String)
  | emptyArray
  | elementType (element first : Ty)
  | arrayLength (found : Ty)
  | arrayIndex (found : Ty)
  | notAnArray (found : Ty)
  | fieldOfNoObject (field : String) (found : Ty)
  | unknownField (className field : String)
  | methodOfNoObject (method : String) (found : Ty)
  | undefinedFunction (name : String)
  | noOverload (name : String) (arguments : List Ty)
  | noConstructor (className : String) (arguments : List Ty)
  | unaryOperand (op : UnaryOp) (operand : Ty)
  | binaryOperands (op : BinaryOp) (left right : Ty)

namespace Problem

def kind : Problem → DiagnosticKind
  | typeRedefined _ => .duplicateTypeDefinition
  | unknownType _ | unknownEnum _ | unknownClass _ => .unknownType
  | voidVariable _ | voidParameter _ | fieldOfType .. => .invalidVoid
  | localLock _ | lockParameter _ | lockResult _ => .lockOutsideGlobalScope
  | redeclared _ | fieldRedeclared .. | methodNamedLikeField .. | parameterRedeclared _ =>
    .redeclaration
  | functionRedefined .. => .duplicateFunction
  | threadMethod _ | threadSignature _ => .invalidThreadFunction
  | missingReturn _ => .missingReturn
  | returnOutsideFunction => .returnOutsideFunction
  | valueReturned _ | noValueReturned .. | mismatch .. | elementType .. => .typeMismatch
  | assignmentToUndeclared _ | undeclared _ | methodAsValue _ => .undeclared
  | condition .. => .nonBoolCondition
  | caseType .. => .caseTypeMismatch
  | misplacedNext _ => .misplacedNext
  | notALock .. | computedLock _ => .notALock
  | unknownMember .. => .unknownEnumValue
  | emptyArray => .emptyArrayLiteral
  | arrayLength _ => .nonIntLength
  | arrayIndex _ => .nonIntIndex
  | notAnArray _ => .notAnArray
  | fieldOfNoObject .. | methodOfNoObject .. => .notAClass
  | unknownField .. => .unknownField
  | undefinedFunction _ => .undeclaredFunction
  | noOverload .. | noConstructor .. => .noMatchingOverload
  | unaryOperand .. | binaryOperands .. => .invalidOperands

/-- A name in a message. -/
def ticked (name : String) : String := "`" ++ name ++ "`"

def message : Problem → String
  | typeRedefined e => e.message
  | unknownType x => "unknown type " ++ ticked x
  | unknownEnum x => "unknown enum " ++ ticked x
  | unknownClass x => "unknown class " ++ ticked x
  | voidVariable x => "variable " ++ ticked x ++ " cannot have type void"
  | voidParameter x => "parameter " ++ ticked x ++ " cannot have type void"
  | fieldOfType x t => "field " ++ ticked x ++ " cannot have type " ++ t.text
  | localLock x => "lock " ++ ticked x ++ " must be declared in the global scope"
  | lockParameter x => "parameter " ++ ticked x ++ " cannot have type lock"
  | lockResult f => ticked f ++ " cannot return a lock"
  | redeclared x => ticked x ++ " is already declared in this scope"
  | fieldRedeclared x c => "field " ++ ticked x ++ " is already declared in " ++ ticked c
  | methodNamedLikeField m c => ticked m ++ " is already declared as a field of " ++ ticked c
  | parameterRedeclared x => "parameter " ++ ticked x ++ " is declared twice"
  | functionRedefined f s => ticked f ++ " is already defined as " ++ s.text
  | threadMethod m => "method " ++ ticked m ++ " cannot be a thread function"
  | threadSignature f =>
    "thread function " ++ ticked f ++ " must take no arguments and return void"
  | missingReturn f => ticked f ++ " does not return a value on every path"
  | returnOutsideFunction => "`return` outside of a function"
  | valueReturned f => ticked f ++ " returns void but a value is returned"
  | noValueReturned f t => ticked f ++ " must return a value of type " ++ t.text
  | mismatch expected purpose found =>
    "expected " ++ expected.text ++ " for " ++ purpose.text ++ " but found " ++ found.text
  | assignmentToUndeclared x => "assignment to undeclared variable " ++ ticked x
  | condition c t => c.text ++ " condition must be bool but found " ++ t.text
  | caseType v d => "case of type " ++ v.text ++ " in a switch over " ++ d.text
  | misplacedNext true => "`next` cannot be used in the last block of a switch"
  | misplacedNext false => "`next` cannot be used in outside of a switch"
  | notALock op t => "cannot " ++ op.text ++ " a value of type " ++ t.text
  | computedLock op => "cannot " ++ op.text ++ " a computed lock"
  | undeclared x => "use of undeclared identifier " ++ ticked x
  | methodAsValue x => ticked x ++ " is a method and cannot be used as a value"
  | unknownMember e m => ticked e ++ " has no member " ++ ticked m
  | emptyArray => "array literals need at least one element"
  | elementType e f => "array element of type " ++ e.text ++ " in an array of " ++ f.text
  | arrayLength t => "array length must be int but found " ++ t.text
  | arrayIndex t => "array index must be int but found " ++ t.text
  | notAnArray t => "cannot index into a value of type " ++ t.text
  | fieldOfNoObject x t => "cannot access field " ++ ticked x ++ " of a value of type " ++ t.text
  | unknownField c x => ticked c ++ " has no field " ++ ticked x
  | methodOfNoObject m t => "cannot call method " ++ ticked m ++ " on a value of type " ++ t.text
  | undefinedFunction f => "call to undefined function " ++ ticked f
  | noOverload f ts => "no overload of " ++ ticked f ++ " accepts (" ++ Ty.listText ts ++ ")"
  | noConstructor c ts => "no constructor of " ++ ticked c ++ " accepts (" ++ Ty.listText ts ++ ")"
  | unaryOperand op t => "operator " ++ ticked op.text ++ " cannot be applied to " ++ t.text
  | binaryOperands op l r =>
    "operator " ++ ticked op.text ++ " cannot be applied to " ++ l.text ++ " and " ++ r.text

end Problem

structure Diagnostic where
  problem : Problem
  span : Span

namespace Diagnostic

def kind (d : Diagnostic) : DiagnosticKind := d.problem.kind

def message (d : Diagnostic) : String := d.problem.message

/-- The message with its place. -/
def text (d : Diagnostic) : String := d.message ++ " (" ++ d.span.text ++ ")"

/-- The diagnostic as it is shown on a terminal. -/
def styled (d : Diagnostic) : Text.Styled := [
  .colored .red "error",
  .colored .red ("[" ++ d.kind.text ++ "]:"),
  .plain (" " ++ d.message ++ " "),
  .colored .white ("(" ++ d.span.text ++ ")")]

end Diagnostic

end Awl
