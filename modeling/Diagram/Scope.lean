import Diagram.Program

/-!
# Scopes

The local names that an expression sees, and what it may do where it stands: only the
action of the ticker sees the time step, and list items may be taken where indexing is
allowed.
-/

namespace Diagram

/-- The local names and capabilities of a place. -/
structure Scope where
  locals : NameMap Ty
  allowTime : Bool
  allowIndex : Bool
deriving Repr, Inhabited

namespace Scope

def top : Scope := ⟨.empty, false, true⟩

def bind (s : Scope) (name : String) (t : Ty) : Scope :=
  { s with locals := s.locals.insert name t }

def withParams (s : Scope) (params : List Param) : Scope :=
  params.foldl (fun s p => s.bind p.name p.ty) s

def get? (s : Scope) (name : String) : Option Ty :=
  s.locals.get? name

end Scope

end Diagram
