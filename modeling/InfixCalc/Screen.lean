namespace InfixCalc

inductive Screen
  | redirected
  | terminal
  | stuck
  deriving DecidableEq, Repr

inductive Piece
  | text (s : String)
  | clear
  deriving DecidableEq, Repr

def Piece.render (mark : String) : Piece → String
  | .text s => s
  | .clear => mark

def Piece.renderAll (mark : String) (ps : List Piece) : String := String.join (ps.map (·.render mark))

end InfixCalc
