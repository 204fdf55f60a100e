import Enfold.Assoc

/-! # Elements

An element of a document has a tag, attributes, child elements, and text: before its first child,
and after its own end up to the next tag. A tag or an attribute in a namespace is written with the
name of the namespace in braces before its local name.
-/

namespace Enfold.Xml

structure Element where
  tag : String
  attributes : Assoc String String := []
  /-- The text before the first child. -/
  text : String := ""
  /-- The text after the end of the element. -/
  tail : String := ""
  children : List Element := []
  deriving Inhabited, Repr

/-- The namespace whose prefix needs no declaration. -/
def xmlNamespace : String := "http://www.w3.org/XML/1998/namespace"

/-- The namespace of namespace declarations, to which no prefix can be bound. -/
def declarationNamespace : String := "http://www.w3.org/2000/xmlns/"

def expandedName (uri localName : String) : String := "\x7b" ++ uri ++ "\x7d" ++ localName

end Enfold.Xml
