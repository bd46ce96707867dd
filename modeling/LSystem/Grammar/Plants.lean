import LSystem.Grammar.Definition

/-! A catalogue of plants.

Every start word opens with the marker `S`, which has no production and no meaning for a drawing, and
every plant brings its own angle, colors under digits and count of generations. -/
namespace LSystem

/-- A plant of the catalogue. -/
inductive Plant where
  | coniferousTree
  | sun
  | shrub
  | dandelion
  | bush
  | leaningTree
deriving DecidableEq

namespace Plant

/-- All plants in the order of the catalogue. -/
def all : List Plant := [coniferousTree, sun, shrub, dandelion, bush, leaningTree]

/-- The name in the catalogue. -/
def name : Plant → String
  | coniferousTree => "coniferous_tree"
  | sun => "sun"
  | shrub => "shrub"
  | dandelion => "dandelion"
  | bush => "bush"
  | leaningTree => "leaning_tree"

/-- The plant of a name. -/
def ofName? (name : String) : Option Plant := all.find? fun plant => plant.name = name

/-- The start word. -/
def start : Plant → String
  | coniferousTree => "SF"
  | sun => "S1[-F]++[F]++[F][--F]++[F]++[F][--F]++[F]++[F]"
  | shrub => "SX"
  | dandelion => "S1F"
  | bush => "S[FX]+[FX]+[FX]"
  | leaningTree => "SF"

/-- A rule whose successors are given as strings. -/
def rule (symbol : Symbol) (alternatives : List (Single × String)) : Clause :=
  .rule symbol (alternatives.map fun alternative => (alternative.1, alternative.2.toList))

/-- An opaque color under a symbol. -/
def color (key : Symbol) (hue saturation brightness : Single) : Clause :=
  .color key (.hsb hue saturation brightness)

/-- What is said about a plant. -/
def clauses : Plant → List Clause
  | coniferousTree =>
    [ .angle 20,
      rule 'F'
        [ (1, "3F[++1F[X]][+2F][-4F][--5F[X]]6F"),
          (1, "3F[+1F][+2F][-4F]5F"),
          (1, "3F[+1F][-2F][--6F]4F") ],
      rule 'X' [(1, "X")],
      color '1' 120 100 61,
      color '2' 134 97 46,
      color '3' 145 87 8,
      color '4' 135 84 41,
      color '5' 116 26 100,
      color '6' 161 71 53,
      .generations 5 ]
  | sun =>
    [ .angle 30,
      rule 'F' [(1, "[F+F-FF+F-F]")],
      color '1' 56 100 100,
      .generations 3 ]
  | shrub =>
    [ .angle 20,
      rule 'X'
        [ (1, "1[[2-X][2-X+FX+FX][2+X]1-FX[2-XF]1F[2-X][2-X]]"),
          (1, "1[[2+X][2+X-FX-FX][2-X]1+FX[2+XF]1F[2+X][2+X]]"),
          (1, "1[[2-X][2-X+FXX+FX][2-FXFX]1-FX[2-XF][2-X]]") ],
      rule 'F' [(1, "FFF")],
      color '1' 131 100 25,
      color '2' 318 22 96,
      color '3' 37 52 151,
      .generations 4 ]
  | dandelion =>
    [ .angle 20,
      rule 'F' [(1, "2X[++1F][+F][-F][--F]")],
      rule 'X' [(1, "2XX")],
      color '1' 16 36 75,
      color '2' 50 100 96,
      color '3' 19 39 38,
      .generations 4 ]
  | bush =>
    [ .angle 25,
      rule 'F'
        [ (2, "0FF-[1-F+F]+[2+F-F]"),
          (1, "0FF+[1+F-F]+[2+F-F]") ],
      rule 'X' [(1, "0FF+[1+F]+[2-F]")],
      color '0' 26 100 55,
      color '1' 107 100 44,
      color '2' 107 44 0,
      .generations 5 ]
  | leaningTree =>
    [ .angle 22,
      rule 'F'
        [ (2, "1FF-[2-F+F+F]+[3+F-F-F]"),
          (1, "1FF+[2+F-F-F]-[3-F+F+F]") ],
      color '1' 50 50 20,
      color '2' 21 100 100,
      color '3' 40 95 90,
      .generations 4 ]

/-- The grammar of a plant. -/
def grammar (plant : Plant) : Except DefinitionError LSystem.Grammar :=
  LSystem.Grammar.ofClauses plant.start.toList plant.clauses

end Plant

end LSystem
