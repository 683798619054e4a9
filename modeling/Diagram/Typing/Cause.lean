import Diagram.Builtin
import Diagram.Program
import Diagram.Source.Highlight
import Diagram.Ty.Coercion

/-!
# Why a program is refused

A program that breaks a rule of the language is refused with a cause and the place of it.  A
tree that no source can produce, such as a definition without a declaration, is a defect and
has no place.
-/

namespace Diagram.Typing

/-- The rule that a program breaks. -/
inductive Cause where
  | unknownName (name : String)
  | valueNotConstant (sig : Signature)
  | initialNotConstant (sig : Signature)
  | cannotCoerce (source target : Ty)
  | mismatch (m : Ty.Mismatch)
  | nestedList
  | cannotAdd (item list : Ty)
  | loopVariable
  | cannotIterate (t : Ty)
  | cannotFilter (t : Ty)
  | memberName
  | noVariant (enum variant : String)
  | noMember (t : Ty) (name : String)
  | builtinName
  | unknownBuiltin (name : String)
  | badCall (e : Builtin.CallError)
  | notCallable (callee : String)
  | argumentCount (sig : Signature) (got : Nat)
  | argument (number : Nat) (sig : Signature) (source target : Ty)
  | indexNotAllowed
  | cannotIndex (t : Ty)
  | cannotApply (op : Operation) (t : Ty)
  | noCommonNumber (a b : Ty)
  | cannotCompare (a b : Ty)
  | rangeStarts
  | cannotMergeBranch (t earlier : Ty)
  | strayAssignment
  | assignmentExpected
  | assignmentTarget
  | updateTarget
  | updateOfLocal (name : String)
  | updateOfOther (sig : Signature)
  | actionName
  | localIsNoAction (name : String)
  | otherIsNoAction (sig : Signature)
  | actionArgumentCount (sig : Signature) (got : Nat)
  | actionArgument (number : Nat) (sig : Signature) (source target : Ty)

def Cause.message : Cause → String
  | unknownName name => s!"unknown name '{name}'"
  | valueNotConstant sig => s!"the value of {sig.text} must be a constant"
  | initialNotConstant sig => s!"the initial value of {sig.text} must be a constant"
  | cannotCoerce source target => s!"cannot coerce '{source.text}' to '{target.text}'"
  | mismatch m => m.message
  | nestedList => "lists cannot be nested"
  | cannotAdd item list => s!"cannot add '{item.text}' to a list of '{list.text}'"
  | loopVariable => "the variable of a comprehension must be a name"
  | cannotIterate t => s!"cannot iterate over '{t.text}'"
  | cannotFilter t => s!"cannot filter '{t.text}', it is not a list"
  | memberName => "expected a member name"
  | noVariant enum variant => s!"enum '{enum}' has no variant '{variant}'"
  | noMember t name => s!"'{t.text}' has no member '{name}'"
  | builtinName => "expected the name of a builtin"
  | unknownBuiltin name => s!"unknown builtin '@{name}'"
  | badCall e => e.message
  | notCallable callee => s!"'{callee}' cannot be called"
  | argumentCount sig got => s!"{sig.text} expects {sig.paramList.length} arguments, got {got}"
  | argument number sig source target =>
    s!"argument {number} of '{sig.name}': cannot coerce '{source.text}' to '{target.text}'"
  | indexNotAllowed => "indexing is not allowed here"
  | cannotIndex t => s!"cannot index into '{t.text}'"
  | cannotApply op t => s!"cannot apply '{op.text}' to '{t.text}'"
  | noCommonNumber a b =>
    s!"cannot coerce '{a.text}' and '{b.text}' to a common numeric type"
  | cannotCompare a b => s!"cannot compare '{a.text}' with '{b.text}'"
  | rangeStarts => "a range takes at most two starting values"
  | cannotMergeBranch t earlier =>
    s!"cannot merge '{t.text}' with the earlier branches of type '{earlier.text}'"
  | strayAssignment => "assignment is only valid in a 'with' clause"
  | assignmentExpected => "expected an assignment after 'with'"
  | assignmentTarget => "the target of an assignment must be a name"
  | updateTarget => "the target of an update must be a name"
  | updateOfLocal name => s!"cannot update '{name}', only a var can be updated"
  | updateOfOther sig => s!"cannot update '{sig.text}', only a var can be updated"
  | actionName => "expected the name of an action"
  | localIsNoAction name => s!"'{name}' is not an action"
  | otherIsNoAction sig => s!"{sig.text} is not an action"
  | actionArgumentCount sig got =>
    s!"action '{sig.name}' expects {sig.paramList.length} arguments, got {got}"
  | actionArgument number sig source target =>
    s!"argument {number} of action '{sig.name}': cannot coerce '{source.text}' to '{target.text}'"

/-- What is wrong with a tree that no source produces. -/
inductive Defect where
  | unknownOperation (op : Operation)
  | missingAction
  | identifierWithoutSignature (name : String)
  | actionWithoutSignature (name : String)
  | identifierWithoutDefinition (name : String)
  | wrongOperands (op : Operation)
  | argumentWithoutParameter (number : Nat)
  | missingExpression
deriving DecidableEq, Repr

def Defect.message : Defect → String
  | unknownOperation op => s!"unknown operation: {op.text}"
  | missingAction => "unknown action: <nil>"
  | identifierWithoutSignature name => s!"identifier '{name}' has no signature"
  | actionWithoutSignature name => s!"action '{name}' has no signature"
  | identifierWithoutDefinition name => s!"identifier '{name}' has no definition"
  | wrongOperands op => s!"wrong number of operands: {op.text}"
  | argumentWithoutParameter number => s!"argument {number} has no parameter"
  | missingExpression => "missing expression"

/-- Why a program is refused. -/
inductive Failure where
  | rejected (e : Located Cause)
  | defective (d : Defect)

/-- What is worth telling of an analysis. -/
inductive Note where
  | identifiers (count : Nat)
  | actions (count : Nat)
  | blocks (entries elements : Nat)
  | foldedCall (name : String) (v : Value)

def Note.isDetail : Note → Bool
  | identifiers _ | actions _ => false
  | blocks _ _ | foldedCall _ _ => true

def Note.text : Note → String
  | identifiers count => s!"analyzed {count} identifiers"
  | actions count => s!"analyzed {count} actions"
  | blocks entries elements =>
    s!"analyzed {entries} public entries and {elements} display elements"
  | foldedCall name v => s!"folded call to @{name} into {v.text}"

end Diagram.Typing
