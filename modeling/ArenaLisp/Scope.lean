import ArenaLisp.Machine

/-!
# Scopes

A scope is a chain of bindings in the arena, `((ident . value) . parent)`, so that a closure
captures its scope by holding the first link.  A chain that ends in the top-level marker goes on
into the builtins; one that ends in `nil` binds nothing more.
-/

namespace ArenaLisp

/-- A value, read as a chain of bindings. -/
structure Scope where
  value : Value
  deriving DecidableEq, Repr

namespace Scope

/-- The scope in which only the builtins are bound. -/
def top : Scope := ⟨.atom .topLevel⟩

/-- What `ident` is bound to in a chain of fewer than `length` links. -/
def lookupWithin (a : Arena) (ident : AtomId) : Nat → Value → Except Stop (Option Value)
  | 0, _ => .error .unfinished
  | length + 1, .pair link => do
    match ← a.car link with
    | .pair entry =>
      if (← a.car entry) = .atom ident then return some (← a.cdr entry)
      else lookupWithin a ident length (← a.cdr link)
    | _ => .error (.illFormed .scope)
  | _ + 1, .nil => pure none
  | _ + 1, .atom id =>
    if id = .topLevel then pure ((Builtin.ofAtom? ident).map .builtin)
    else .error (.illFormed .scope)
  | _ + 1, .builtin _ => .error (.illFormed .scope)

/-- What `ident` is bound to, innermost binding first.  A chain of more links than there are cells
goes round for ever. -/
def lookup (s : Scope) (a : Arena) (ident : AtomId) : Except Stop (Option Value) :=
  lookupWithin a ident (a.used + 1) s.value

/-- Binds `ident`, which is `nil` or an atom, in front of a scope that is pinned.  A binding of
`nil` is kept, but nothing looks it up.  The new scope is not pinned yet. -/
def extend (s : Scope) (ident v : Value) : Action Scope := do
  let entry ← Action.cons ident v
  return ⟨← Action.cons entry s.value⟩

end Scope

end ArenaLisp
