import Wikitext.Link.Outermost

/-!
Media links: the outermost links whose text begins with one of the namespace aliases and a colon.
They are reported in document order, whole, with their parameters as written.
-/

namespace Wikitext

structure MediaLink where
  aliasUsed : Text
  title : Text
  params : List Text
  bytes : ByteRange
  span : Span
  deriving DecidableEq, Repr

/-- A link whose alias swallows the separator that ends its title: the alias holds a `|` or `]]`. -/
structure AliasOverrun where
  aliasUsed : Text
  start : Nat
  deriving DecidableEq, Repr

namespace MediaLink

def file (l : MediaLink) : Text :=
  l.aliasUsed ++ ':' :: l.title

/-- The first alias that is not empty and with which, and a colon, the cells begin; a cluster
boundary follows the colon. -/
def aliasAt? (aliases : List Text) (cells : List Cell) : Option Text :=
  aliases.find? fun a =>
    a ≠ [] && Cell.beginsWith cells (a ++ [':']) && Cell.atBoundary (cells.drop (a.length + 1))

def ofOuter? (d : Document) (aliases : List Text) (l : OuterLink) :
    Option (Except AliasOverrun MediaLink) :=
  match aliasAt? aliases (d.cellsFrom (l.start + 2)) with
  | none => none
  | some a =>
    if l.title.length ≤ a.length then some (.error ⟨a, l.start⟩)
    else
      some (.ok ⟨a, l.title.drop (a.length + 1), l.params, l.bytes, d.spanOf l.bytes⟩)

end MediaLink

namespace Document

def mediaLinks (d : Document) (aliases : List Text) : Except AliasOverrun (List MediaLink) :=
  (d.outerLinks.filterMap (MediaLink.ofOuter? d aliases)).mapM id

end Document

end Wikitext
