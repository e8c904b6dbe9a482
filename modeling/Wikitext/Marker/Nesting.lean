import Wikitext.Failure
import Wikitext.Marker.Step

/-!
The limit on nesting. A document passes when no step leaves more templates or more links open than
the limit; otherwise the first step that does is reported by the cluster it begins with.
-/

namespace Wikitext

def Depths.within (d : Depths) (limit : Nat) : Bool :=
  d.template ≤ limit && d.link ≤ limit

namespace Document

def checkNesting (d : Document) (limit : Nat) : Except Failure Unit :=
  match d.steps.dropWhile (·.depths.within limit) with
  | [] => .ok ()
  | _ :: _ =>
    let before : Text := (d.steps.takeWhile (·.depths.within limit)).flatMap Step.text
    .error (.tooDeep (d.clusterAt before.byteLength) limit)

end Document

end Wikitext
