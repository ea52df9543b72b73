namespace InfixCalc.Text

/-- Lower case over ASCII. No other character has a lower case among the letters of the words that are
looked up this way. -/
def lower (s : String) : String := s.map Char.toLower

/-- Upper case over ASCII, and over the two other letters whose upper case is an ASCII letter. -/
def upperChar (c : Char) : Char :=
  match c.toNat with
  | 0x131 => 'I'
  | 0x17F => 'S'
  | _ => c.toUpper

def upper (s : String) : String := s.map upperChar

end InfixCalc.Text
