/-!
# The roles of names

What a name does at a place of a module.  The role of its first occurrence decides whether a name may
be renamed at all and which category it falls into.
-/

set_option autoImplicit false

namespace Abridge

/-- Where a name occurs. -/
inductive Role where
  /-- It is introduced by a declaration. -/
  | declaration
  /-- It names a property, a member or a part of a module's interface. -/
  | memberProperty
  /-- It is the local name of an import. -/
  | importBinding
  /-- It is the key of a method or field. -/
  | methodKey
  /-- It is introduced in a parameter list. -/
  | parameter
  /-- It is used. -/
  | other
  deriving DecidableEq, Repr, Inhabited

namespace Role

/-- Whether a name that first occurs in this role may be renamed. -/
def isRenamable : Role → Bool
  | .declaration | .parameter | .other => true
  | .memberProperty | .importBinding | .methodKey => false

/-- The written form of a role. -/
def text : Role → String
  | .declaration => "declaration"
  | .memberProperty => "memberProperty"
  | .importBinding => "importBinding"
  | .methodKey => "methodKey"
  | .parameter => "parameter"
  | .other => "other"

/-- All roles. -/
def all : List Role := [.declaration, .memberProperty, .importBinding, .methodKey, .parameter, .other]

/-- The role that a text names. -/
def ofText? (s : String) : Option Role := all.find? fun r => r.text == s

end Role

end Abridge
