import Termwise.Number.Shortest
import Termwise.Text.Quoted
import Termwise.Term.Basic

/-!
# Termwise.Term.Write

The text of a term:

```text
f(a, b)      call of a symbol, of a call or of a magic value
(1)(a, b)    call of any other atom
{a, b}       call of a symbol named List
"text"       string, with escapes
<<type>>     host object without a text of its own
```
-/

namespace Termwise

/-! ## atoms -/

/-- The name of a magic value. -/
def Magic.name : Magic → String
  | .null => "Null"
  | .undefined => "Undefined"
  | .sequence => "PatternSequence"

/-- The text of a host object. -/
def HostObject.write (o : HostObject) : String := o.text.getD ("<<" ++ o.kind ++ ">>")

namespace Term

/-- Whether a term is a symbol that is written as list braces. -/
def isListHead : Term → Bool
  | .symbol s => s.name == "List"
  | _ => false

/-- Whether a head is written without parentheses around it. -/
def bareHead : Term → Bool
  | .magic _ | .symbol _ | .node .. => true
  | _ => false

/-! ## terms -/

mutual

/-- The characters of the text of a term. -/
def chars : Term → List Char
  | .magic m => m.name.toList
  | .int n => (toString n.toInt).toList
  | .float x => x.toText.toList
  | .text s => (Text.Quoted.ofUnits s.units).toList
  | .symbol s => s.name.toList
  | .host o => o.write.toList
  | .node _ head args =>
    if head.isListHead then '\x7b' :: charsAll args ++ ['\x7d']
    else
      (if head.bareHead then chars head else '(' :: chars head ++ [')'])
        ++ '(' :: charsAll args ++ [')']

/-- The characters of terms with commas between them. -/
def charsAll : List Term → List Char
  | [] => []
  | [t] => chars t
  | t :: rest => chars t ++ ',' :: ' ' :: charsAll rest

end

/-- The text of a term. -/
def toText (t : Term) : String := String.ofList t.chars

instance : ToString Term := ⟨toText⟩

end Term

end Termwise
