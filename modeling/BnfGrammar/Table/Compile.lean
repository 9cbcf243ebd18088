import BnfGrammar.Automaton.Reach
import BnfGrammar.Collections.ArrivalSet
import BnfGrammar.Log
import BnfGrammar.Table.Basic
import BnfGrammar.Text.Quoted

/-!
# From automata to tables

The labels on the edges that leave reachable states are numbered in the order in which they are met,
and the number of a label is the class of its characters. Where two labels share a character, the
later one takes it over, and a notice says so: the table then does not run like the automaton.
-/

namespace BnfGrammar

/-! ## Labels -/

def Automaton.labels (a : Automaton) : ArrivalSet String :=
  ArrivalSet.ofList (a.reachableEdges.map Edge.label)

namespace Table

/-- The class of a label is its place among the labels. -/
def classOfLabel (labels : List String) (label : String) : ClassId :=
  UInt32.ofNat (labels.idxOf label)

/-! ## Classes of characters -/

inductive Notice
  | moved (c : Char) (previous current : ClassId)
  | numbered (current : ClassId) (label : String)
  deriving DecidableEq

structure Classes where
  ofChar : Std.ExtTreeMap Char ClassId := ∅
  notices : List Notice := []

namespace Classes

def assign (current : ClassId) (classes : Classes) (c : Char) : Classes where
  ofChar := classes.ofChar.insert c current
  notices :=
    match classes.ofChar[c]? with
    | some previous => classes.notices ++ [.moved c previous current]
    | none => classes.notices

def addLabel (classes : Classes) (label : String × Nat) : Classes :=
  let current := UInt32.ofNat label.2
  let assigned := label.1.toList.foldl (assign current) classes
  { assigned with notices := assigned.notices ++ [.numbered current label.1] }

def ofLabels (labels : List String) : Classes :=
  labels.zipIdx.foldl addLabel {}

end Classes

/-! ## Tables -/

/-- The table of an automaton. An edge that is met later replaces an earlier one of the same state
and label. -/
def compile (kind : TokenKind) (a : Automaton) : Table :=
  let labels := a.labels.toList
  let accepting := a.reach.filter a.isAccepting
  { kind := kind
    classOfChar := (Classes.ofLabels labels).ofChar
    transitions := a.reachableEdges.foldl
      (fun found edge => found.insert (classOfLabel labels edge.label, edge.source) edge.target) ∅
    tokenOf := accepting.foldl (fun found state => found.insert state kind) ∅
    accepting := Std.ExtTreeSet.ofList accepting
    legal := Std.ExtTreeSet.ofList a.reach
    classCount := UInt32.ofNat labels.length }

def compileNotices (a : Automaton) : List Notice :=
  (Classes.ofLabels a.labels.toList).notices

def Notice.record (kind : TokenKind) : Notice → Log.Record
  | .moved c previous current =>
      ⟨.warn, s!"[tables] {kind.name}: {Text.quotedChar c} moved from class {previous} to " ++
        s!"{current}; automaton is not deterministic"⟩
  | .numbered current label =>
      ⟨.debug, s!"[tables] {kind.name}: class {current} = {Text.quoted label}"⟩

def compileLog (kind : TokenKind) (a : Automaton) : List Log.Record :=
  (compileNotices a).map (Notice.record kind)

end Table
end BnfGrammar
