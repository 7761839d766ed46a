import ShiftReduce.Lalr.Tables

/-!
# Reports on tables

Texts about states, conflicts and resolutions for the author of a grammar.
-/

namespace ShiftReduce

/-- A state as text: its items and its moves, a line each. -/
def State.render (g : Grammar) (i : Nat) (s : State) : String :=
  "State " ++ toString i ++ "\n" ++
    String.join ((s.items g).map fun item => "  " ++ item.text g ++ "\n") ++
    String.join (s.moves.map fun m => "  " ++ g.symbolName m.1 ++ " => " ++ toString m.2 ++ "\n")

/-- All states as text, with an empty line between two of them. -/
def Collection.render (g : Grammar) (states : Array State) : String :=
  "\n".intercalate (states.toList.zipIdx.map fun s => s.1.render g s.2)

namespace Conflict

/-- The wording of a conflict. -/
def message (c : Conflict) : String :=
  c.kind.name ++ " conflict in state " ++ toString c.state ++ " on " ++ c.terminalName ++ ": " ++
    c.previousText ++ " vs " ++ c.newText

/-- A conflict with the items of its state. -/
def report (c : Conflict) : String :=
  c.kind.name ++ " conflict at state " ++ toString c.state ++ ":\n\n" ++
    String.join (c.items.map fun item => "  " ++ item ++ "\n") ++
    "\nwhen the lookahead is " ++ c.terminalName ++ " (terminal " ++ toString c.terminal ++
    "), the parser can\n\n  " ++ c.previousText ++ "\n\nor\n\n  " ++ c.newText ++ "\n"

end Conflict

/-- The action that a resolution has not chosen. -/
def Verdict.refused (v : Verdict) : Action := if v.chosen = v.previous then v.new else v.previous

/-- A resolution as a line of text. -/
def Resolution.text (g : Grammar) (r : Resolution) : String :=
  "state " ++ toString r.state ++ ", lookahead " ++ g.terminalName r.terminal ++ ": " ++
    r.verdict.chosen.text ++ " over " ++ r.verdict.refused.text

/-- The resolutions of a table, a line each. -/
def Tables.resolutionReport (g : Grammar) (t : Tables) : String :=
  String.join (t.resolutions.map fun r => r.text g ++ "\n")

end ShiftReduce
