import Comet.Assoc
import Comet.Text.Span

/-!
# The label table

A label has an address and is visible in the scope that declares it or, if it is
global, everywhere. The label of a subroutine that starts elsewhere than at its
first record owns no address: it is redirected to another label of its scope.

A name is looked up in a fixed order: as a redirection whose target exists, as a
label of the scope, as a global label.
-/

namespace Comet

namespace LabelTable

/-- What distinguishes the entries of the table: a name and, unless the label is
global, a scope. -/
structure Key where
  name : String
  scope : Option Nat
  deriving DecidableEq, Repr

namespace Key

/-- The key of a label of one scope. -/
def inScope (name : String) (scope : Nat) : Key := ⟨name, some scope⟩

/-- The key of a global label. -/
def global (name : String) : Key := ⟨name, none⟩

/-- Names first; of the same name the global label first, then the scopes in
order. -/
def le (a b : Key) : Bool :=
  if a.name = b.name then
    match a.scope, b.scope with
    | none, _ => true
    | some _, none => false
    | some m, some n => m ≤ n
  else a.name < b.name

end Key

/-- A label with an address. -/
structure Entry where
  address : Nat
  /-- The scope of the declaration, also of a global label. -/
  scope : Nat
  definition : Option Location
  references : List Location
  deriving DecidableEq, Repr

/-- A name that stands for another label of its scope. -/
structure Redirection where
  target : Key
  scope : Nat
  definition : Option Location
  deriving DecidableEq, Repr

end LabelTable

/-- The labels of a program. -/
structure LabelTable where
  entries : List (LabelTable.Key × LabelTable.Entry)
  redirections : List (String × LabelTable.Redirection)
  deriving DecidableEq, Repr

namespace LabelTable

/-- The table without labels. -/
def empty : LabelTable := ⟨[], []⟩

variable (t : LabelTable)

/-- The number of labels with an address. -/
def size : Nat := t.entries.length

/-- The entry of a key. -/
def get? (key : Key) : Option Entry := Assoc.get? key t.entries

/-- The redirection of a name. -/
def redirection? (name : String) : Option Redirection := Assoc.get? name t.redirections

/-- Declares a label, as one that nothing refers to yet. -/
def insert (key : Key) (address scope : Nat) (definition : Option Location) : LabelTable :=
  { t with
    entries := Assoc.insert key { address, scope, definition, references := [] } t.entries }

@[simp] theorem get?_insert (key key' : Key) (address scope : Nat)
    (definition : Option Location) :
    (t.insert key address scope definition).get? key' =
      if key = key' then some { address, scope, definition, references := [] }
      else t.get? key' :=
  Assoc.get?_insert key key' _ t.entries

@[simp] theorem redirection?_insert (key : Key) (address scope : Nat)
    (definition : Option Location) (name : String) :
    (t.insert key address scope definition).redirection? name = t.redirection? name := rfl

/-- Declares a label of one scope. -/
def addLocal (name : String) (address scope : Nat) (definition : Option Location) :
    LabelTable :=
  t.insert (.inScope name scope) address scope definition

/-- Declares a label that is visible everywhere. -/
def addGlobal (name : String) (address scope : Nat) (definition : Option Location) :
    LabelTable :=
  t.insert (.global name) address scope definition

/-- Lets a name stand for another label of the given scope. -/
def redirect (name target : String) (scope : Nat) (definition : Option Location) :
    LabelTable :=
  { t with
    redirections :=
      Assoc.insert name { target := .inScope target scope, scope, definition } t.redirections }

@[simp] theorem get?_redirect (name target : String) (scope : Nat)
    (definition : Option Location) (key : Key) :
    (t.redirect name target scope definition).get? key = t.get? key := rfl

@[simp] theorem redirection?_redirect (name target : String) (scope : Nat)
    (definition : Option Location) (name' : String) :
    (t.redirect name target scope definition).redirection? name' =
      if name = name' then some { target := .inScope target scope, scope, definition }
      else t.redirection? name' :=
  Assoc.get?_insert name name' _ t.redirections

/-- Whether a scope declares the name in any way. -/
def isDeclaredIn (name : String) (scope : Nat) : Bool :=
  (t.get? (.inScope name scope)).isSome ||
    (t.get? (.global name)).any (·.scope == scope) ||
    (t.redirection? name).any (·.scope == scope)

/-- Whether the name is visible everywhere. -/
def isGlobal (name : String) : Bool :=
  (t.get? (.global name)).isSome || (t.redirection? name).isSome

/-- The key, if the table has an entry for it. -/
def present? (key : Key) : Option Key :=
  if (t.get? key).isSome then some key else none

/-- The key that a name stands for in a scope. -/
def lookup? (name : String) (scope : Nat) : Option Key :=
  ((t.redirection? name).bind fun r => t.present? r.target).or
    ((t.present? (.inScope name scope)).or (t.present? (.global name)))

/-- The address that a name stands for in a scope. -/
def address? (name : String) (scope : Nat) : Option Nat :=
  ((t.lookup? name scope).bind t.get?).map (·.address)

/-- Changes the entry of a key, if there is one. -/
def modify? (key : Key) (f : Entry → Entry) : Option LabelTable :=
  if (t.get? key).isSome then some { t with entries := Assoc.modify key f t.entries }
  else none

/-- Records a use of a key, if there is an entry for it. -/
def referTo? (key : Key) (place : Location) : Option LabelTable :=
  t.modify? key fun e => { e with references := e.references ++ [place] }

/-- Records a use of a name in a scope, if it stands for an entry. -/
def addReference? (name : String) (scope : Nat) (place : Location) : Option LabelTable :=
  (t.lookup? name scope).bind fun key => t.referTo? key place

/-- The entries in the order of their keys. -/
def sortedEntries : List (Key × Entry) :=
  t.entries.mergeSort fun a b => a.1.le b.1

/-- The redirections in the order of their names. -/
def sortedRedirections : List (String × Redirection) :=
  t.redirections.mergeSort fun a b => a.1 ≤ b.1

end LabelTable

end Comet
