import PocketCalc.Window.Basic

/-!
# The buttons

`Button.ofLabel?` reads the label of a button; `Window.click` is the effect of a click on it.
-/

namespace PocketCalc

/-- The buttons of the window. -/
inductive Button where
  /-- A key of the calculator. -/
  | key (k : Key)
  | history
  | graph
  | draw
  | drawDisplay
  /-- Unfolds the settings. -/
  | settings
deriving DecidableEq

namespace Button

/-- The characters that have a button of their own and are shown as they are. -/
def characters : Text := "0123456789/(*)-^+%x".toList

/-- The labels of the other buttons. -/
def labels : List (Text × Button) :=
  [("MC".toList, .key .memoryClear), ("MR".toList, .key .memoryRecall), ("M+".toList, .key .memoryAdd),
    ("M-".toList, .key .memorySubtract), ("MS".toList, .key .memoryStore),
    ("sin".toList, .key (.task (.function .sin))), ("cos".toList, .key (.task (.function .cos))),
    ("tan".toList, .key (.task (.function .tan))), ("asin".toList, .key (.task (.function .asin))),
    ("acos".toList, .key (.task (.function .acos))), ("atan".toList, .key (.task (.function .atan))),
    ("ln".toList, .key (.task (.function .ln))), ("log".toList, .key (.task (.function .log10))),
    ("exp".toList, .key (.task (.function .exp))), ("√".toList, .key (.task (.function .sqrt))),
    ("x²".toList, .key (.task (.function .square))), ("x³".toList, .key (.task (.function .cube))),
    ("n!".toList, .key (.task (.function .factorial))), ("d/dx".toList, .key (.task .derivative)),
    ("∫".toList, .key (.task .integral)), ("π".toList, .key (.constant .pi)), ("e".toList, .key (.constant .e)),
    ("AC".toList, .key .clearAll), ("C".toList, .key .clearEntry), ("⌫".toList, .key .backspace),
    ("±".toList, .key .sign), (".".toList, .key .point), ("=".toList, .key .equals),
    ("Historique".toList, .history), ("Graphe".toList, .graph), ("Effacer".toList, .key .clearHistory),
    ("Tracer".toList, .draw), ("Utiliser l’affichage".toList, .drawDisplay), ("Réglages".toList, .settings)]

/-- The button with a label. -/
def ofLabel? (label : Text) : Option Button :=
  match label with
  | [c] => if c ∈ characters then some (.key (.character c)) else labels.lookup label
  | _ => labels.lookup label

/-- No label is given twice. -/
example : (labels.map Prod.fst).Nodup := by decide

end Button

/-- What a button does. -/
def Window.act (w : Window) : Button → Window
  | .key k => w.press k
  | .history => w.toggleHistory
  | .graph => w.toggleGraph
  | .draw => w.draw
  | .drawDisplay => w.drawDisplay
  | .settings => w

end PocketCalc
