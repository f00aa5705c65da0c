import FnCAS.Node
import FnCAS.Graph
import FnCAS.Eval
import FnCAS.Visit
import FnCAS.EvalCorrect
import FnCAS.Memo
import FnCAS.Cycles
import FnCAS.Expansion
import FnCAS.Record
import FnCAS.Thread
import FnCAS.Session
import FnCAS.Program
