import Wikitext.AltInsertion
import Wikitext.NameTable

/-!
One alternative text for all the links of an article that lack one. The links are listed once; each
is then looked up by its text in the article as edited so far, so that of equal links every one has
its turn. A link without a caption stays as it is.
-/

namespace Wikitext

namespace NameTable

def captionIn? (a : NameTable) (markup : Text) : Except AliasOverrun (Option Text) := do
  return (← a.mediaLinks (.ofText markup)).head?.bind a.caption?

def fillOne (a : NameTable) (alt : Text) (article markup : Text) : Except AliasOverrun Text := do
  match ← a.captionIn? markup with
  | some caption => return insertAlt alt caption markup article
  | none => return article

def fillAlt (a : NameTable) (alt : Text) (article : Text) : Except AliasOverrun Text := do
  (← a.missingAlt (.ofText article)).foldlM (fun t m => a.fillOne alt t m.text) article

end NameTable

end Wikitext
