namespace InfixCalc.Arguments

def program : String := "rpnkalk"

def usage : String :=
  "usage: rpnkalk [-h] [-e EVAL_EXPR] [--format \x7bjson,human\x7d] [-p PRECISION]
               [--rpn] [--strict] [-v]
               [--log-level \x7bDEBUG,INFO,WARNING,ERROR\x7d] [--log-file LOG_FILE]
               [--health-check]
"

def help : String :=
  usage ++ "
Infix arithmetic calculator built on the shunting-yard algorithm

options:
  -h, --help            show this help message and exit
  -e EVAL_EXPR, --eval EVAL_EXPR
                        Evaluate one expression and exit (non-interactive)
  --format \x7bjson,human\x7d
                        Output format: json (machine-readable) or human
                        (human-readable)
  -p PRECISION, --precision PRECISION
                        Decimal places shown for results
  --rpn                 Also print the postfix form of expressions
  --strict              Reject unrecognized characters instead of ignoring
                        them
  -v, --version         Show program version
  --log-level \x7bDEBUG,INFO,WARNING,ERROR\x7d
                        Set logging level
  --log-file LOG_FILE   Write logs to file
  --health-check        Run health check against SymPy reference results
"

def complaint (message : String) : String := usage ++ program ++ ": error: " ++ message ++ "\n"

end InfixCalc.Arguments
