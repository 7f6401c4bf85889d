/-!
# Parts of a text

Whether a text begins with, ends in or holds another one.
-/

namespace Bindery.Text

/-- What follows each place where `word` stands in the text, from left to right. -/
def afterEach (word : List Char) : List Char → List (List Char)
  | [] => if word = [] then [[]] else []
  | c :: cs =>
    (if word.isPrefixOf (c :: cs) then [(c :: cs).drop word.length] else []) ++ afterEach word cs

def beginsWith (text start : String) : Bool := start.toList.isPrefixOf text.toList

def endsWith (text stop : String) : Bool := stop.toList.isSuffixOf text.toList

def contains (text part : String) : Bool := !(afterEach part.toList text.toList).isEmpty

/-- What follows `start` in a text that begins with it. -/
def after? (text start : String) : Option String :=
  if beginsWith text start then some (String.ofList (text.toList.drop start.toList.length))
  else none

end Bindery.Text
