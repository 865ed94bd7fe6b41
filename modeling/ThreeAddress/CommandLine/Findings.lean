import ThreeAddress.ControlFlow.Cfg
import ThreeAddress.Dataflow.Analysis
import ThreeAddress.Graph.Frontier
import ThreeAddress.Json.Value

/-! The results of analyses for printing, function by function and block by block. -/

namespace ThreeAddress.CommandLine

/-- The facts at the top and at the bottom of a block. -/
structure BlockFlow where
  label : String
  top : List String
  bottom : List String

/-- The place of a block in the dominator tree. -/
structure BlockDominance where
  label : String
  reachable : Bool
  idom : Option String
  dominators : List String
  children : List String
  frontier : List String

/-- The results for a function. -/
structure FunctionFindings (B : Type) where
  name : String
  blocks : List B

/-- Facts about every block, each as a list of words. -/
def blockFlows {D : Type} (g : Cfg) (facts : Facts g.toFlowGraph D) (words : D → List String)
    : List BlockFlow :=
  g.blocks.map fun b =>
    { label := g.label b, top := words (facts.top.get b), bottom := words (facts.bottom.get b) }

/-- The dominance relation of a function. -/
def blockDominances (g : Cfg) : List BlockDominance :=
  let tree := g.domTree
  let frontiers := tree.frontiers
  g.blocks.map fun b =>
    { label := g.label b
      reachable := tree.isReachable b
      idom := (tree.idom? b).map g.label
      dominators := (tree.dominators b).map g.label
      children := (tree.children b).map g.label
      frontier := (g.members (frontiers.get b)).map g.label }

namespace BlockFlow

/-- Writes the facts of a block in three lines. -/
def text (block : BlockFlow) : String :=
  "  ." ++ block.label ++ ":\n    in:  " ++ " ".intercalate block.top
    ++ "\n    out: " ++ " ".intercalate block.bottom ++ "\n"

def toJson (block : BlockFlow) : Json :=
  .ofMembers
    [("label", .ofString block.label), ("in", .ofStrings block.top),
      ("out", .ofStrings block.bottom)]

end BlockFlow

namespace BlockDominance

def bracketed (words : List String) : String :=
  "[" ++ " ".intercalate words ++ "]"

/-- Writes the place of a block in one line. -/
def text (block : BlockDominance) : String :=
  "  ." ++ block.label ++ ": "
    ++ (if block.reachable then
        "idom " ++ block.idom.getD "-" ++ ", dominators " ++ bracketed block.dominators
          ++ ", children " ++ bracketed block.children
          ++ ", frontier " ++ bracketed block.frontier
      else "unreachable")
    ++ "\n"

def toJson (block : BlockDominance) : Json :=
  .ofMembers
    [("label", .ofString block.label), ("reachable", .bool block.reachable),
      ("idom", .ofOption .ofString block.idom), ("dominators", .ofStrings block.dominators),
      ("children", .ofStrings block.children), ("frontier", .ofStrings block.frontier)]

end BlockDominance

namespace FunctionFindings

variable {B : Type}

/-- Writes the name of a function and then its blocks. -/
def text (block : B → String) (findings : FunctionFindings B) : String :=
  "@" ++ findings.name ++ "\n" ++ String.join (findings.blocks.map block)

/-- Writes functions with an empty line between any two. -/
def textAll (block : B → String) (findings : List (FunctionFindings B)) : String :=
  "\n".intercalate (findings.map (text block))

def toJsonAll (block : B → Json) (findings : List (FunctionFindings B)) : Json :=
  .ofMembers [("functions", .array (findings.map fun f =>
    .ofMembers [("name", .ofString f.name), ("blocks", .array (f.blocks.map block))]))]

end FunctionFindings

end ThreeAddress.CommandLine
