/-! Names of symbols. A symbol is a free function or a method of a class; the two never share a
name, even where they are written alike. -/

namespace DeferredTypes

/-- The name of a symbol: a free function has no owner, a method is owned by its class. -/
structure Path where
  owner : Option String
  name : String
  deriving DecidableEq, Repr, Inhabited

namespace Path

def function (name : String) : Path := ⟨none, name⟩

def method (owner name : String) : Path := ⟨some owner, name⟩

/-- Whether the path names a method. A class may have the empty name. -/
def isMethod (path : Path) : Bool := path.owner.isSome

/-- The written form: `name`, or `owner::name`. -/
def display (path : Path) : String :=
  match path.owner with
  | none => path.name
  | some owner => owner ++ "::" ++ path.name

/-- Free functions come first, then methods by owner; names settle the rest. Texts compare by code
points. -/
def le (left right : Path) : Bool :=
  match left.owner, right.owner with
  | none, some _ => true
  | some _, none => false
  | none, none => left.name ≤ right.name
  | some l, some r => l < r || (l = r && left.name ≤ right.name)

/-- The paths of a list in order, each once. -/
def sorted (paths : List Path) : List Path :=
  (paths.mergeSort le).eraseReps

end Path

end DeferredTypes
