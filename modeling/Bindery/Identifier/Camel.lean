import Bindery.Identifier.Words
import Bindery.Text.Casing

/-!
# Camel case

Identifiers as capitalized words without separators, and the names of enum items, which lose the
words that all items begin with.
-/

namespace Bindery.Identifier

/-- The first character in upper case, the rest in lower case. -/
def capitalize (word : String) : String :=
  match word.toList with
  | [] => ""
  | c :: cs => String.ofList (Text.uppercase c ++ cs.flatMap Text.lowercase)

/-- The words in camel form. -/
def joinCamel (ws : List String) : String := String.join (ws.map capitalize)

/-- The name in camel form: `time_base` gives `TimeBase`, `AVFrame` gives `AvFrame`. -/
def camel (name : String) : String := joinCamel (words name)

/-- How many leading words `first` shares with all of `rest`, looking at `n` words at most. -/
def sharedWords (rest : List (List String)) : (n : Nat) → (first : List String) → Nat
  | 0, _ => 0
  | _, [] => 0
  | n + 1, w :: ws =>
    if rest.all (fun other => other.head? == some w) then sharedWords (rest.map List.tail) n ws + 1
    else 0

/-- How many leading words all names share, each name keeping at least one word. -/
def commonPrefixLength : List (List String) → Nat
  | [] => 0
  | first :: rest =>
    let shortest := rest.foldl (fun n ws => min n ws.length) first.length
    sharedWords rest (shortest - 1) first

/-- The name, after an underscore if it begins with a digit. -/
def guardDigit (name : String) : String :=
  if name.toList.head?.any Char.isDigit then "_" ++ name else name

/-- The host names of enum items: `COLOR_RED` and `COLOR_GREEN` become `Red` and `Green`. -/
def enumItemNames (items : List String) : List String :=
  let split := items.map words
  let n := commonPrefixLength split
  split.map fun ws => guardDigit (joinCamel (ws.drop n))

end Bindery.Identifier
