import Nslc.AST.Syntax
/-!
# Sema — symbols and scopes

A scope holds its symbols in declaration order, at most one for a name.
The table keeps the open scopes, innermost first, and the closed ones,
the one closed last in front: a lookup goes through the open scopes, and
through the closed ones when none is open any more.
-/

namespace Nslc

namespace Sema

open AST

inductive SymbolKind where
  | port
  | reg
  | wire
  | variable
  | integer
  | mem
  | funcIn
  | funcOut
  | funcSelf
  | proc
  | state
  | submodule
  | structType
  deriving DecidableEq, Repr

inductive Ty where
  | bit
  | bitVector (width : ℕ)
  | struct (name : Ident) (totalWidth : ℕ)
  | memory (depth : ℕ) (width : ℕ)
  | unresolved
  deriving DecidableEq, Repr

structure Symbol where
  kind : SymbolKind
  name : Ident
  /-- `declLoc`. -/
  loc : Loc
  /-- Not set for a parameter. -/
  type : Option Ty
  deriving DecidableEq, Repr

inductive ScopeKind where
  | global
  | declare
  | module
  | proc
  | seqOrParallel
  | function
  deriving DecidableEq, Repr

structure Scope where
  kind : ScopeKind
  symbols : List Symbol
  deriving DecidableEq, Repr

namespace Scope

def lookupLocal (s : Scope) (name : Ident) : Option Symbol :=
  s.symbols.find? fun sym => sym.name = name

/-- `insert`: a name that is taken is refused. -/
def insert (s : Scope) (sym : Symbol) : Option Scope :=
  if (s.lookupLocal sym.name).isSome then none else some { s with symbols := s.symbols ++ [sym] }

end Scope

structure SymbolTable where
  /-- Innermost first. -/
  scopes : List Scope
  /-- The scope closed last in front. -/
  retired : List Scope
  deriving DecidableEq, Repr

namespace SymbolTable

def enterScope (t : SymbolTable) (kind : ScopeKind) : SymbolTable :=
  { t with scopes := ⟨kind, []⟩ :: t.scopes }

def leaveScope (t : SymbolTable) : SymbolTable :=
  match t.scopes with
  | [] => t
  | s :: ss => ⟨ss, s :: t.retired⟩

/-- `declare`: into the innermost scope. -/
def declare (t : SymbolTable) (sym : Symbol) : Option SymbolTable :=
  match t.scopes with
  | [] => none
  | s :: ss => (s.insert sym).map fun s' => { t with scopes := s' :: ss }

/-- Into the innermost scope of the kind, else into the innermost one. -/
def insertInScope (kind : ScopeKind) (sym : Symbol) : List Scope → Option (List Scope)
  | [] => none
  | s :: ss =>
    if s.kind = kind then (s.insert sym).map (· :: ss)
    else (insertInScope kind sym ss).map (s :: ·)

def declareInScope (t : SymbolTable) (kind : ScopeKind) (sym : Symbol) : Option SymbolTable :=
  if t.scopes.any fun s => s.kind = kind then
    (insertInScope kind sym t.scopes).map fun ss => { t with scopes := ss }
  else t.declare sym

/-- The first scope of the list that has the name. -/
def findIn (ss : List Scope) (name : Ident) : Option Symbol :=
  ss.findSome? fun s => s.lookupLocal name

def lookup (t : SymbolTable) (name : Ident) : Option Symbol :=
  match findIn t.scopes name with
  | some sym => some sym
  | none => if t.scopes.isEmpty then findIn t.retired name else none

end SymbolTable

end Sema

end Nslc
