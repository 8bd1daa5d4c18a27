import LiveMarkup.Live.Server

/-!
A card: a title, a count with a button that raises it, and a list of items. This module has its data and the markup
that a server sends for it.
-/

namespace LiveMarkup
open Live

structure Card where
  kind : String
  title : String
  count : Int
  items : List String
  active : Bool
  tone : Option String
  deriving Repr, BEq, DecidableEq

namespace Card

/-- Markup in a region that is closed behind it. -/
def child (markup : String) : String := markup ++ closingComment

def itemMarkup (item : String) : String := interleave ["<li>", "</li>"] [child (Markup.Entity.escapeAll item)]

def markup (card : Card) : String :=
  interleave ["<div", "", "><h1", ">", "</h1><p>Count: <!--$-->", "</p><button>+</button><ul>", "</ul></div>"]
    [classesMarkup (some card.kind) [("active", card.active)], stylesMarkup (some "") [("color", card.tone)],
      attributeMarkup "title" (some card.title), child (Markup.Entity.escapeAll card.title),
      child (toString card.count), child (String.join (card.items.map itemMarkup))]

end Card
end LiveMarkup
