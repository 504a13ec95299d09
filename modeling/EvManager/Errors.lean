import Mathlib.Algebra.Ring.Int.Defs
import Mathlib.Tactic.Common

/-!
# Error codes

The error variant that travels to the caller of an operation (`errors.hpp`).  `Errnos` is an enum over
`uint8_t` which the code also makes by a cast from `int`, so a value of it is any byte.
-/

namespace EvManager

inductive EventManagerErrors
  | unknownError
  | submissionQueueFull
  | systemCommunicationChannelFailure
  deriving DecidableEq, Repr

/-- `enum class Errnos : uint8_t`. -/
abbrev Errnos := UInt8

/-- `Errnos::UNKNOWN_ERROR`, the value `submit_request` returns when there was no error. -/
def Errnos.unknownError : Errnos := 0

/-- The numbers that have an enumerator of their own; 41 and 58 are the two left out. -/
def Errnos.Named (n : ℤ) : Prop := 1 ≤ n ∧ n ≤ 133 ∧ n ≠ 41 ∧ n ≠ 58

/-- `static_cast<Errnos>(n)`: the low byte of the number. -/
def Errnos.cast (n : ℤ) : Errnos := UInt8.ofInt n

/-- The alternatives of the error variant that hold an errno. -/
inductive ErrnoType
  | liburingSubmissionErrErrno
  | operationErrErrno
  deriving DecidableEq, Repr

/-- `ErrorCodes`, with the alternatives in the order of `ErrorType`. -/
inductive ErrorCodes
  | noErr
  | eventManagerErr (e : EventManagerErrors)
  | errno (t : ErrnoType) (e : Errnos)
  deriving DecidableEq, Repr

namespace ErrorProcessing

def isThereAnError : ErrorCodes → Bool
  | .noErr => false
  | _ => true

/-- `set_error_from_enum<ErrorType::EVENT_MANAGER_ERR>`: the old value is overwritten. -/
def setErrorFromEnum (_error : ErrorCodes) (e : EventManagerErrors) : ErrorCodes := .eventManagerErr e

/-- `set_error_from_num<Et>`, at the two alternatives it is instantiated with. -/
def setErrorFromNum (t : ErrnoType) (_error : ErrorCodes) (n : ℤ) : ErrorCodes := .errno t (Errnos.cast n)

/-- `get_contained_error_code<Et>`, at the alternatives that hold an errno. -/
def getContainedErrorCode (t : ErrnoType) : ErrorCodes → Option Errnos
  | .errno t' e => if t = t' then some e else none
  | _ => none

@[simp] theorem isThereAnError_eq_false {e : ErrorCodes} : isThereAnError e = false ↔ e = .noErr := by
  cases e <;> simp [isThereAnError]

@[simp] theorem isThereAnError_setErrorFromNum (t : ErrnoType) (e : ErrorCodes) (n : ℤ) :
    isThereAnError (setErrorFromNum t e n) = true := rfl

@[simp] theorem isThereAnError_setErrorFromEnum (e : ErrorCodes) (e' : EventManagerErrors) :
    isThereAnError (setErrorFromEnum e e') = true := rfl

end ErrorProcessing

end EvManager
