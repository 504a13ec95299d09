import Mathlib.Algebra.Ring.Int.Defs
import Mathlib.Tactic.Common

/-!
# Response packs and the communication channel

The data that travels back from the event loop to a coroutine (`communication/`): one response pack for
each request type, and the channel, a variant with one slot which every publish overwrites.
-/

namespace EvManager

/-- A user pointer.  The library passes them on and never looks behind one, but for the first entry of an
`iovec` array. -/
abbrev Addr := ℕ

inductive RequestType
  | read | write | close | shutdown | readv | writev | accept | connect | openat | statx | unlinkat
  | renameat
  deriving DecidableEq, Repr

structure GenericResponsePack where
  errorNum : ℤ := 0
  reqFd : ℤ := 0
  deriving DecidableEq, Repr

structure ReadResponsePack extends GenericResponsePack where
  bytesRead : ℕ := 0
  buff : Addr := 0
  deriving DecidableEq, Repr

structure WriteResponsePack extends GenericResponsePack where
  bytesWrote : ℕ := 0
  deriving DecidableEq, Repr

structure CloseResponsePack extends GenericResponsePack where
  deriving DecidableEq, Repr

structure ShutdownResponsePack extends GenericResponsePack where
  deriving DecidableEq, Repr

structure ReadvResponsePack extends GenericResponsePack where
  bytesRead : ℕ := 0
  buff : Addr := 0
  deriving DecidableEq, Repr

structure WritevResponsePack extends GenericResponsePack where
  bytesWrote : ℕ := 0
  deriving DecidableEq, Repr

structure AcceptResponsePack extends GenericResponsePack where
  fd : ℤ := 0
  deriving DecidableEq, Repr

structure ConnectResponsePack extends GenericResponsePack where
  deriving DecidableEq, Repr

structure OpenatResponsePack extends GenericResponsePack where
  deriving DecidableEq, Repr

structure StatxResponsePack extends GenericResponsePack where
  pathname : Addr := 0
  deriving DecidableEq, Repr

structure UnlinkatResponsePack extends GenericResponsePack where
  pathname : Addr := 0
  deriving DecidableEq, Repr

structure RenameatResponsePack extends GenericResponsePack where
  oldpathname : Addr := 0
  newpathname : Addr := 0
  deriving DecidableEq, Repr

/-- The alternatives of `ResponseVariant` other than `monostate`. -/
inductive ResponsePack
  | read (d : ReadResponsePack)
  | write (d : WriteResponsePack)
  | close (d : CloseResponsePack)
  | shutdown (d : ShutdownResponsePack)
  | readv (d : ReadvResponsePack)
  | writev (d : WritevResponsePack)
  | accept (d : AcceptResponsePack)
  | connect (d : ConnectResponsePack)
  | openat (d : OpenatResponsePack)
  | statx (d : StatxResponsePack)
  | unlinkat (d : UnlinkatResponsePack)
  | renameat (d : RenameatResponsePack)
  deriving DecidableEq, Repr

/-- The request type whose index the alternative has. -/
def ResponsePack.type : ResponsePack → RequestType
  | .read _ => .read
  | .write _ => .write
  | .close _ => .close
  | .shutdown _ => .shutdown
  | .readv _ => .readv
  | .writev _ => .writev
  | .accept _ => .accept
  | .connect _ => .connect
  | .openat _ => .openat
  | .statx _ => .statx
  | .unlinkat _ => .unlinkat
  | .renameat _ => .renameat

/-- The part every pack has. -/
def ResponsePack.generic : ResponsePack → GenericResponsePack
  | .read d => d.toGenericResponsePack
  | .write d => d.toGenericResponsePack
  | .close d => d.toGenericResponsePack
  | .shutdown d => d.toGenericResponsePack
  | .readv d => d.toGenericResponsePack
  | .writev d => d.toGenericResponsePack
  | .accept d => d.toGenericResponsePack
  | .connect d => d.toGenericResponsePack
  | .openat d => d.toGenericResponsePack
  | .statx d => d.toGenericResponsePack
  | .unlinkat d => d.toGenericResponsePack
  | .renameat d => d.toGenericResponsePack

/-- A value-initialised `RespDataTypeMap<Rt>`. -/
def ResponsePack.empty : RequestType → ResponsePack
  | .read => .read {}
  | .write => .write {}
  | .close => .close {}
  | .shutdown => .shutdown {}
  | .readv => .readv {}
  | .writev => .writev {}
  | .accept => .accept {}
  | .connect => .connect {}
  | .openat => .openat {}
  | .statx => .statx {}
  | .unlinkat => .unlinkat {}
  | .renameat => .renameat {}

@[simp] theorem ResponsePack.type_empty (t : RequestType) : (ResponsePack.empty t).type = t := by
  cases t <;> rfl

/-- `CommunicationChannel`; `none` is the `monostate` alternative. -/
structure CommunicationChannel where
  responseStore : Option ResponsePack := none
  deriving DecidableEq, Repr

namespace CommunicationChannel

/-- `publish_resp_data`, at the alternative of the data. -/
def publishRespData (data : ResponsePack) (_c : CommunicationChannel) : CommunicationChannel := ⟨some data⟩

/-- `consume_resp_data<Rt>`: the data when the variant holds that alternative, and the channel after. -/
def consumeRespData (rt : RequestType) (c : CommunicationChannel) :
    Option ResponsePack × CommunicationChannel :=
  match c.responseStore with
  | some data => if data.type = rt then (some data, ⟨none⟩) else (none, c)
  | none => (none, c)

/-- `response_store_current_type`; the index of `monostate` is no request type. -/
def responseStoreCurrentType (c : CommunicationChannel) : Option RequestType :=
  c.responseStore.map ResponsePack.type

/-- What was published is consumed, at its own type, and the channel is empty after. -/
theorem consumeRespData_publishRespData (data : ResponsePack) (c : CommunicationChannel) :
    consumeRespData data.type (publishRespData data c) = (some data, ⟨none⟩) := by
  simp [consumeRespData, publishRespData]

@[simp] theorem responseStoreCurrentType_publishRespData (data : ResponsePack) (c : CommunicationChannel) :
    responseStoreCurrentType (publishRespData data c) = some data.type := rfl

@[simp] theorem responseStore_publishRespData (data : ResponsePack) (c : CommunicationChannel) :
    (publishRespData data c).responseStore = some data := rfl

end CommunicationChannel

end EvManager
