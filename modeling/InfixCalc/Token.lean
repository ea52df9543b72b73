namespace InfixCalc

inductive Token.Kind
  | number | operator | opening | closing | stray
  deriving DecidableEq, Repr

structure Token where
  kind : Token.Kind
  text : String
  position : Int
  deriving DecidableEq, Repr

end InfixCalc
