-- Scopes. A scope is a chain of bindings, newest first, with a mark where
-- each frame starts; the part after the last mark is the global frame. No
-- step changes a chain: it answers a new one, and the old one stays good.
-- That is what lets a walk hand the same scope to several branches.
import ShaderMorph.Scope.Symbol

namespace ShaderMorph

/-- A link of the chain: the start of a frame, or a declared variable. -/
inductive ScopeEntry
  | frame
  | binding (symbol : Symbol)
deriving DecidableEq, Repr

/-- A chain of bindings and the number of frames open below the global one. -/
structure ScopeTree where
  entries : List ScopeEntry
  depth : Nat
deriving DecidableEq, Repr

/-- A name that is declared twice in one frame, at this depth. -/
structure Redeclared where
  name : String
  depth : Nat
deriving DecidableEq, Repr

def Redeclared.message (e : Redeclared) : String :=
  "'" ++ e.name ++ "' is already declared in the current scope (depth " ++
    Decimal.natural e.depth ++ ")"

namespace ScopeTree

/-- The global scope with nothing declared. -/
def empty : ScopeTree := ⟨[], 0⟩

def isGlobal (t : ScopeTree) : Bool := t.depth == 0

/-! ## Looking up -/

/-- The newest binding of a name in a chain, whatever its frame. -/
def lookupIn (name : String) : List ScopeEntry → Option Symbol
  | [] => none
  | .binding s :: rest => if s.name = name then some s else lookupIn name rest
  | .frame :: rest => lookupIn name rest

/-- The newest binding of a name before the chain reaches the start of a
frame. -/
def lookupInFrame (name : String) : List ScopeEntry → Option Symbol
  | [] => none
  | .binding s :: rest => if s.name = name then some s else lookupInFrame name rest
  | .frame :: _ => none

/-- The declaration that a name stands for. -/
def lookup (t : ScopeTree) (name : String) : Option Symbol := lookupIn name t.entries

/-- The declaration of a name in the innermost frame. -/
def lookupInCurrentFrame (t : ScopeTree) (name : String) : Option Symbol :=
  lookupInFrame name t.entries

/-- Whether a declaration is bound, be it hidden by a newer one or not. -/
def binds (t : ScopeTree) (id : Nat) : Bool :=
  t.entries.any fun
    | .binding s => s.id == id
    | .frame => false

/-! ## New scopes -/

/-- Open a frame. -/
def enter (t : ScopeTree) : ScopeTree := ⟨.frame :: t.entries, t.depth + 1⟩

/-- What a chain is without its innermost frame, when it has one to lose. -/
def dropFrame? : List ScopeEntry → Option (List ScopeEntry)
  | [] => none
  | .frame :: rest => some rest
  | .binding _ :: rest => dropFrame? rest

/-- Close the innermost frame and forget its bindings. The global scope
stays as it is. -/
def exit (t : ScopeTree) : ScopeTree :=
  if t.isGlobal then t
  else
    match dropFrame? t.entries with
    | some rest => ⟨rest, t.depth - 1⟩
    | none => empty

/-- Bind a symbol in the innermost frame, which gives it its depth, even
when the frame has the name already. -/
def shadow (t : ScopeTree) (s : Symbol) : ScopeTree :=
  ⟨.binding { s with depth := t.depth } :: t.entries, t.depth⟩

/-- Bind a symbol whose name the innermost frame does not have yet. -/
def declare (t : ScopeTree) (s : Symbol) : Except Redeclared ScopeTree :=
  if (t.lookupInCurrentFrame s.name).isSome then .error ⟨s.name, t.depth⟩
  else .ok (t.shadow s)

@[simp] theorem depth_shadow (t : ScopeTree) (s : Symbol) : (t.shadow s).depth = t.depth := rfl

@[simp] theorem depth_enter (t : ScopeTree) : t.enter.depth = t.depth + 1 := rfl

/-- Closing a frame that was just opened gives the scope back. -/
@[simp] theorem exit_enter (t : ScopeTree) : t.enter.exit = t := by
  simp [exit, enter, isGlobal, dropFrame?]

end ScopeTree

end ShaderMorph
