/-!
# Exceptions

What the modelled functions throw. The standard exception classes carry the text the source
gives them; a failed `assert` is a class of its own, since it ends the process, and so is a loop that
never ends.
-/

namespace KeyVDB

/-- The exceptions of the source, with their messages. -/
inductive Exn
  /-- `std::runtime_error` -/
  | runtimeError (what : String)
  /-- `std::invalid_argument` -/
  | invalidArgument (what : String)
  /-- `std::out_of_range` -/
  | outOfRange (what : String)
  /-- `std::system_error` -/
  | systemError (what : String)
  /-- A failed `assert`; the text is the asserted condition. -/
  | assertion (cond : String)
  /-- The call never returns. -/
  | diverges
  deriving DecidableEq, Repr

/-- The process ends or hangs. -/
def Exn.ends : Exn → Bool
  | .assertion _ => true
  | .diverges => true
  | _ => false

end KeyVDB
