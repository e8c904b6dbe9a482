import Wikitext.Caption
import Wikitext.Link.AltText

/-!
The names that one language's wiki uses for media links. Tables are joined as ordered unions: what
the first has keeps its place, and of the second only what is new comes after it, once.
-/

namespace Wikitext

structure NameTable where
  namespaces : List Text
  altParams : List Text
  /-- Image options that are never captions. -/
  magicWords : List Text
  deriving DecidableEq, Repr

namespace NameTable

def empty : NameTable := ⟨[], [], []⟩

def join (xs ys : List Text) : List Text :=
  ys.foldl (fun zs y => if zs.contains y then zs else zs ++ [y]) xs

def extend (a b : NameTable) : NameTable :=
  ⟨join a.namespaces b.namespaces, join a.altParams b.altParams, join a.magicWords b.magicWords⟩

def withMagicWords (a : NameTable) (words : List Text) : NameTable :=
  { a with magicWords := words }

def isEmpty (a : NameTable) : Bool :=
  a.namespaces.isEmpty

def mediaLinks (a : NameTable) (d : Document) : Except AliasOverrun (List MediaLink) :=
  d.mediaLinks a.namespaces

def missingAlt (a : NameTable) (d : Document) : Except AliasOverrun (List MissingAlt) :=
  d.missingAlt a.namespaces a.altParams

def caption? (a : NameTable) (l : MediaLink) : Option Text :=
  l.caption? a.magicWords

def english : NameTable :=
  withMagicWords ⟨["File", "Image"].map String.toList, ["alt".toList], []⟩
    (["thumb", "thumbnail", "frame", "framed", "frameless", "border", "left", "right", "center",
      "centre", "none", "upright"].map String.toList)

end NameTable

end Wikitext
