import DistRocks.Wire.Bytes

/-!
# The protocol words

The strings of `const_values.cpp`, under the names of their getters, and the size of every buffer.
-/

namespace DistRocks

/-- The size of the send and receive buffers. -/
def MAXLINE : ℕ := 40960

namespace ConstValues

def PUT : Bytes := text "put"
def GET : Bytes := text "get"
def DEL : Bytes := text "del"
def DEL_LOG : Bytes := text "dlg"
def COMMIT_LOG : Bytes := text "CLG"
def SIZE : Bytes := text "size"
def QUIT : Bytes := text "quit"
def LOG : Bytes := text "log"
def TEST : Bytes := text "test"
def OK : Bytes := text "ok"
def MAX_KEY : Bytes := text "max"
def MIN_KEY : Bytes := text "min"
def LESS_OR_EQUAL_ONE : Bytes := text "LEO"

end ConstValues

end DistRocks
