import MiniScheme.Machine.Native

/-! Pairs and lists. -/
namespace MiniScheme.Native

/-- Applies `f` to the parts of a pair. A hollow pair has none. -/
def onPair (name : String) (f : Value → Value → Value) : Native :=
  ⟨ascii name, 1, fun m args =>
    let reply := match args with
      | [.pair left right] => .value (f left right)
      | [v] =>
        .refused (.typeMismatch (ascii name ++ ascii " expects a pair, got " ++
          v.typeName))
      | _ => .crashed
    (m.console, reply)⟩

def cons : Native :=
  ⟨ascii "cons", 2, fun m args =>
    let reply := match args with
      | [left, right] => .value (.pair left right)
      | _ => .crashed
    (m.console, reply)⟩

def car : Native :=
  onPair "car" fun left _ => left

def cdr : Native :=
  onPair "cdr" fun _ right => right

def isNull : Native :=
  ⟨ascii "null?", 1, fun m args => (m.console, .value (.boolean (args == [.null])))⟩

def pairs : List Native :=
  [cons, car, cdr, isNull]

end MiniScheme.Native
