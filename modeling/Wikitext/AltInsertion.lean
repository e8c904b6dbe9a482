import Wikitext.Link.Outermost
import Wikitext.Rendering

/-!
Adding alternative text to a link, beside the parameter that holds its caption. The caption may be
given as written or as displayed. The text around the link stays as it is.
-/

namespace Wikitext

inductive AltPlace where
  | before (index : Nat)
  | last
  deriving DecidableEq, Repr

namespace AltPlace

/-- The place beside the parameter that holds the caption. One written as the caption takes
precedence over one displayed as it; behind a displayed caption that comes last, the new parameter
goes to the end. -/
def ofCaption? (caption : Text) (params : List Text) : Option AltPlace :=
  if caption.trim = [] then none
  else
    match params.findIdx? (·.trim = caption.trim) with
    | some i => some (.before i)
    | none =>
      match params.findIdx? (displayText · = caption.trim) with
      | some i => some (if i + 1 = params.length then .last else .before i)
      | none => none

def spaced (param : Text) : Text :=
  if param.head?.any isWhite then param else ' ' :: param

def insert (alt : Text) (params : List Text) : AltPlace → List Text
  | before i =>
    params.take i ++ (' ' :: alt ++ [' ']) ::
      match params.drop i with
      | [] => []
      | p :: more => spaced p :: more
  | last => params ++ [' ' :: alt]

end AltPlace

def addAlt? (alt caption markup : Text) : Option Text :=
  match (Document.ofText markup).outerLinks.head? with
  | none => none
  | some l =>
    if l.start = 0 then
      (AltPlace.ofCaption? caption l.params).map fun place =>
        OuterLink.render l.title (place.insert alt l.params) ++ markup.drop l.text.length
    else none

/-- The text with alternative text added to the first occurrence of `markup`; unchanged when there
is none, or none can be added. -/
def insertAlt (alt caption markup text : Text) : Text :=
  if markup = [] then text
  else
    match text.breakOn? markup, addAlt? alt caption markup with
    | some (before, after), some edited => before ++ edited ++ after
    | _, _ => text

end Wikitext
