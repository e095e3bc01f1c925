/-
# `SubtermIndex.Sample.Algebra` — records of algebraic expressions

An expression is an operator over operands, a number or a variable.  As a record it has a `type`,
a `value` where there is one, and its `children`, which is the usual name of the field that the
standard reader looks for.
-/
import SubtermIndex.Cbor.Value

namespace SubtermIndex.Sample

open Cbor

/-- The record of an operator. -/
def operation (kind : String) (children : List Value) : Value :=
  .record [(.text "type", .text kind), (.text "children", .list children)]

/-- The record of a leaf that carries a value. -/
def leaf (kind : String) (content : Value) : Value :=
  .record [(.text "type", .text kind), (.text "value", content), (.text "children", .list [])]

def number (n : Integer) : Value := leaf "value" (.int n)

def variableNamed (name : String) : Value := leaf "variable" (.text name)

inductive Operator where
  | plus | times | minus | divide | equals
  deriving DecidableEq, Repr

namespace Operator

def all : List Operator := [plus, times, minus, divide, equals]

def name : Operator → String
  | plus => "plus"
  | times => "times"
  | minus => "minus"
  | divide => "divide"
  | equals => "equals"

def ofName? (s : String) : Option Operator := all.find? fun op => op.name == s

end Operator

/-- An expression. -/
inductive Expr where
  | number (n : Integer)
  | variableNamed (name : String)
  | apply (op : Operator) (operands : List Expr)
  deriving Inhabited

mutual
def Expr.toValue : Expr → Value
  | .number n => Sample.number n
  | .variableNamed name => Sample.variableNamed name
  | .apply op operands => operation op.name (toValues operands)
termination_by structural e => e

def Expr.toValues : List Expr → List Value
  | [] => []
  | e :: rest => e.toValue :: toValues rest
termination_by structural es => es
end

end SubtermIndex.Sample
