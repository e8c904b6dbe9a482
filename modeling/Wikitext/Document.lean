import Wikitext.Cluster.Cell

/-!
A text with its cluster boundaries. Places are byte offsets inside the library and cluster offsets
in everything it reports; the conversions round down to the cluster that holds the byte, and clamp
to the end of the text.
-/

namespace Wikitext

structure Span where
  offset : Nat
  length : Nat
  deriving DecidableEq, Repr

def Span.stop (s : Span) : Nat :=
  s.offset + s.length

/-- A stretch of a document in bytes; `stop` is exclusive. -/
structure ByteRange where
  start : Nat
  stop : Nat
  deriving DecidableEq, Repr

namespace Cell

/-- The byte offsets of the clusters that begin among cells which lie from `pos` on, and of their
end, after the offsets `found`, the latest first. -/
def boundariesOnto (found : List Nat) (pos : Nat) : List Cell → List Nat
  | [] => (pos :: found).reverse
  | a :: r => boundariesOnto (if a.opens then pos :: found else found) (pos + a.char.utf8Size) r

def boundaries (cells : List Cell) : List Nat :=
  boundariesOnto [] 0 cells

def dropBytes (n : Nat) : List Cell → List Cell
  | [] => []
  | a :: r => if n = 0 then a :: r else dropBytes (n - a.char.utf8Size) r

end Cell

structure Document where
  text : Text
  cells : List Cell
  /-- Where every cluster begins, then the byte length. -/
  boundaries : List Nat
  cells_eq : cells = Cell.ofText text
  boundaries_eq : boundaries = Cell.boundaries cells

namespace Document

def ofText (t : Text) : Document :=
  ⟨t, Cell.ofText t, Cell.boundaries (Cell.ofText t), rfl, rfl⟩

@[simp]
theorem text_ofText (t : Text) : (ofText t).text = t := rfl

def clusterCount (d : Document) : Nat :=
  d.boundaries.length - 1

/-- Whether a cluster begins at a byte offset, or the text ends there. -/
def isBoundary (d : Document) (byte : Nat) : Bool :=
  d.boundaries.contains byte

def clusterAt (d : Document) (byte : Nat) : Nat :=
  d.boundaries.countP (· ≤ byte) - 1

def byteAt (d : Document) (cluster : Nat) : Nat :=
  match d.boundaries[cluster]? with
  | some byte => byte
  | none => d.text.byteLength

/-- The clusters from the one that holds the start to the one that holds the end. -/
def spanOf (d : Document) (bytes : ByteRange) : Span :=
  ⟨d.clusterAt bytes.start, d.clusterAt bytes.stop - d.clusterAt bytes.start⟩

def bytesOf (d : Document) (span : Span) : ByteRange :=
  ⟨d.byteAt span.offset, d.byteAt span.stop⟩

def slice (d : Document) (span : Span) : Text :=
  d.text.slice (d.byteAt span.offset) (d.byteAt span.stop)

def cellsFrom (d : Document) (byte : Nat) : List Cell :=
  Cell.dropBytes byte d.cells

end Document

end Wikitext
