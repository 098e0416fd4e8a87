set_option autoImplicit false

namespace Variability.Xml

structure Name where
  space : Option String
  label : String
  deriving DecidableEq, Repr

structure Tag where
  name : Name
  attributes : List (Name × String)
  line : Nat
  deriving DecidableEq, Repr

def Tag.attribute? (t : Tag) (name : Name) : Option String := t.attributes.lookup name

/-- A sequence of nodes: each constructor holds one node and what follows it. A reference to an
entity that is not known is a node of its own. -/
inductive Content where
  | nil
  | text (chars : List Char) (next : Content)
  | comment (next : Content)
  | instruction (next : Content)
  | unknown (entity : String) (next : Content)
  | element (tag : Tag) (children : Content) (next : Content)
  deriving DecidableEq, Repr

namespace Content

def chars : Content → List Char
  | .nil => []
  | .text cs next => cs ++ chars next
  | .comment next | .instruction next => chars next
  | .unknown entity next => '&' :: entity.toList ++ ';' :: chars next
  | .element _ children next => chars children ++ chars next

/-- All nodes at any depth that are no text, in document order; an element with its content. -/
def descendants : Content → List (Option Content)
  | .nil => []
  | .text _ next => descendants next
  | .comment next | .instruction next | .unknown _ next => none :: descendants next
  | .element _ children next => some children :: (descendants children ++ descendants next)

/-- The text on this level behind the first node that is no text. -/
def tailText : Content → List Char
  | .nil => []
  | .text _ next => tailText next
  | .comment next | .instruction next | .unknown _ next => topText next
  | .element _ _ next => topText next
where
  topText : Content → List Char
    | .nil => []
    | .text cs next => cs ++ topText next
    | .comment next | .instruction next | .unknown _ next => topText next
    | .element _ _ next => topText next

def append : Content → Content → Content
  | .nil, c => c
  | .text cs next, c => .text cs (append next c)
  | .comment next, c => .comment (append next c)
  | .instruction next, c => .instruction (append next c)
  | .unknown entity next, c => .unknown entity (append next c)
  | .element tag children next, c => .element tag children (append next c)

end Content
end Variability.Xml
