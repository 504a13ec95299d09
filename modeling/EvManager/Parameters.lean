import EvManager.Communication

/-!
# Parameter packs, submission entries and responses

The parameters of a request (`event_loop/parameter_packs.hpp`), the submission queue entry each of the
three ways of issuing it prepares, the record `RequestData` whose address goes into `user_data`, and the
response pack `event_handler` builds from the record and the result of the operation.
-/

namespace EvManager

/-- The address of a coroutine frame, `std::coroutine_handle`. -/
abbrev CoroId := ℕ

/-- The address of a `RequestData`. -/
abbrev ReqId := ℕ

/-- The address of a `TaskStatus`. -/
abbrev StatusId := ℕ

/-! ### Parameter packs -/

structure ReadParameterPack where
  fd : ℤ := 0
  buffer : Addr := 0
  length : ℕ := 0
  deriving DecidableEq, Repr

structure WriteParameterPack where
  fd : ℤ := 0
  buffer : Addr := 0
  length : ℕ := 0
  deriving DecidableEq, Repr

structure CloseParameterPack where
  fd : ℤ := 0
  deriving DecidableEq, Repr

structure ShutdownParameterPack where
  fd : ℤ := 0
  how : ℤ := 0
  deriving DecidableEq, Repr

structure ReadvParameterPack where
  fd : ℤ := 0
  iovs : Addr := 0
  num : ℕ := 0
  deriving DecidableEq, Repr

structure WritevParameterPack where
  fd : ℤ := 0
  iovs : Addr := 0
  num : ℕ := 0
  deriving DecidableEq, Repr

structure AcceptParameterPack where
  sockfd : ℤ := 0
  addr : Addr := 0
  addrlen : Addr := 0
  deriving DecidableEq, Repr

structure ConnectParameterPack where
  sockfd : ℤ := 0
  addr : Addr := 0
  addrlen : ℕ := 0
  deriving DecidableEq, Repr

structure OpenatParameterPack where
  dirfd : ℤ := 0
  pathname : Addr := 0
  flags : ℤ := 0
  mode : ℕ := 0
  deriving DecidableEq, Repr

structure StatxParameterPack where
  dirfd : ℤ := 0
  pathname : Addr := 0
  flags : ℤ := 0
  mask : ℕ := 0
  statxbuf : Addr := 0
  deriving DecidableEq, Repr

structure UnlinkatParameterPack where
  dirfd : ℤ := 0
  pathname : Addr := 0
  flags : ℤ := 0
  deriving DecidableEq, Repr

structure RenameatParameterPack where
  olddirfd : ℤ := 0
  oldpathname : Addr := 0
  newdirfd : ℤ := 0
  newpathname : Addr := 0
  flags : ℤ := 0
  deriving DecidableEq, Repr

/-- `OperationParameterPackVariant`. -/
inductive ParameterPack
  | read (p : ReadParameterPack)
  | write (p : WriteParameterPack)
  | close (p : CloseParameterPack)
  | shutdown (p : ShutdownParameterPack)
  | readv (p : ReadvParameterPack)
  | writev (p : WritevParameterPack)
  | accept (p : AcceptParameterPack)
  | connect (p : ConnectParameterPack)
  | openat (p : OpenatParameterPack)
  | statx (p : StatxParameterPack)
  | unlinkat (p : UnlinkatParameterPack)
  | renameat (p : RenameatParameterPack)
  deriving DecidableEq, Repr

/-- `static_cast<RequestType>(req.index())`. -/
def ParameterPack.type : ParameterPack → RequestType
  | .read _ => .read
  | .write _ => .write
  | .close _ => .close
  | .shutdown _ => .shutdown
  | .readv _ => .readv
  | .writev _ => .writev
  | .accept _ => .accept
  | .connect _ => .connect
  | .openat _ => .openat
  | .statx _ => .statx
  | .unlinkat _ => .unlinkat
  | .renameat _ => .renameat

/-- `RequestQueue::req_vec`. -/
abbrev RequestQueue := List ParameterPack

namespace RequestQueue

variable (q : RequestQueue)

def queueRead (fd : ℤ) (buffer : Addr) (length : ℕ) : RequestQueue := q ++ [.read ⟨fd, buffer, length⟩]
def queueWrite (fd : ℤ) (buffer : Addr) (length : ℕ) : RequestQueue := q ++ [.write ⟨fd, buffer, length⟩]
def queueClose (fd : ℤ) : RequestQueue := q ++ [.close ⟨fd⟩]
def queueShutdown (fd how : ℤ) : RequestQueue := q ++ [.shutdown ⟨fd, how⟩]
def queueReadv (fd : ℤ) (iovs : Addr) (num : ℕ) : RequestQueue := q ++ [.readv ⟨fd, iovs, num⟩]
def queueWritev (fd : ℤ) (iovs : Addr) (num : ℕ) : RequestQueue := q ++ [.writev ⟨fd, iovs, num⟩]
def queueAccept (sockfd : ℤ) (addr addrlen : Addr) : RequestQueue := q ++ [.accept ⟨sockfd, addr, addrlen⟩]
def queueConnect (sockfd : ℤ) (addr : Addr) (addrlen : ℕ) : RequestQueue :=
  q ++ [.connect ⟨sockfd, addr, addrlen⟩]
def queueOpenat (dirfd : ℤ) (pathname : Addr) (flags : ℤ) (mode : ℕ) : RequestQueue :=
  q ++ [.openat ⟨dirfd, pathname, flags, mode⟩]
def queueStatx (dirfd : ℤ) (pathname : Addr) (flags : ℤ) (mask : ℕ) (statxbuf : Addr) : RequestQueue :=
  q ++ [.statx ⟨dirfd, pathname, flags, mask, statxbuf⟩]
def queueUnlinkat (dirfd : ℤ) (pathname : Addr) (flags : ℤ) : RequestQueue :=
  q ++ [.unlinkat ⟨dirfd, pathname, flags⟩]
def queueRenameat (olddirfd : ℤ) (oldpathname : Addr) (newdirfd : ℤ) (newpathname : Addr) (flags : ℤ) :
    RequestQueue :=
  q ++ [.renameat ⟨olddirfd, oldpathname, newdirfd, newpathname, flags⟩]

end RequestQueue

/-! ### Submission queue entries -/

inductive Opcode
  | nop | read | write | close | shutdown | readv | writev | accept | connect | openat | statx | unlinkat
  | renameat | asyncCancel
  deriving DecidableEq, Repr

/-- A cast to a 32-bit unsigned field. -/
def u32 (n : ℤ) : ℕ := (n % 2 ^ 32).toNat

/-- A cast to `uint64_t`. -/
def u64 (n : ℤ) : ℕ := (n % 2 ^ 64).toNat

/-- `io_uring_sqe`, with the fields the helpers below write.  `userData` is the pointer that comes back
with the completion. -/
structure Sqe where
  opcode : Opcode := .nop
  fd : ℤ := 0
  off : ℕ := 0
  addr : ℕ := 0
  len : ℕ := 0
  opFlags : ℕ := 0
  userData : Option ReqId := none
  deriving DecidableEq, Repr

/-! The helpers of liburing.  They write every field of the entry but `user_data`. -/

def ioUringPrepRw (op : Opcode) (fd : ℤ) (addr : ℕ) (len : ℤ) (offset : ℕ) (sqe : Sqe) : Sqe :=
  { sqe with opcode := op, fd := fd, off := offset, addr := addr, len := u32 len, opFlags := 0 }

def ioUringPrepRead (fd : ℤ) (buf : Addr) (nbytes : ℕ) (offset : ℕ) : Sqe → Sqe :=
  ioUringPrepRw .read fd buf nbytes offset

def ioUringPrepWrite (fd : ℤ) (buf : Addr) (nbytes : ℕ) (offset : ℕ) : Sqe → Sqe :=
  ioUringPrepRw .write fd buf nbytes offset

def ioUringPrepClose (fd : ℤ) : Sqe → Sqe := ioUringPrepRw .close fd 0 0 0

def ioUringPrepShutdown (fd how : ℤ) : Sqe → Sqe := ioUringPrepRw .shutdown fd 0 how 0

def ioUringPrepReadv (fd : ℤ) (iovecs : Addr) (nrVecs : ℕ) (offset : ℕ) : Sqe → Sqe :=
  ioUringPrepRw .readv fd iovecs nrVecs offset

def ioUringPrepWritev (fd : ℤ) (iovecs : Addr) (nrVecs : ℕ) (offset : ℕ) : Sqe → Sqe :=
  ioUringPrepRw .writev fd iovecs nrVecs offset

def ioUringPrepAccept (fd : ℤ) (addr addrlen : Addr) (flags : ℤ) (sqe : Sqe) : Sqe :=
  { ioUringPrepRw .accept fd addr 0 addrlen sqe with opFlags := u32 flags }

def ioUringPrepConnect (fd : ℤ) (addr : Addr) (addrlen : ℕ) : Sqe → Sqe :=
  ioUringPrepRw .connect fd addr 0 addrlen

def ioUringPrepOpenat (dfd : ℤ) (path : Addr) (flags : ℤ) (mode : ℕ) (sqe : Sqe) : Sqe :=
  { ioUringPrepRw .openat dfd path mode 0 sqe with opFlags := u32 flags }

def ioUringPrepStatx (dfd : ℤ) (path : Addr) (flags : ℤ) (mask : ℕ) (statxbuf : Addr) (sqe : Sqe) : Sqe :=
  { ioUringPrepRw .statx dfd path mask statxbuf sqe with opFlags := u32 flags }

def ioUringPrepUnlinkat (dfd : ℤ) (path : Addr) (flags : ℤ) (sqe : Sqe) : Sqe :=
  { ioUringPrepRw .unlinkat dfd path 0 0 sqe with opFlags := u32 flags }

def ioUringPrepRenameat (olddfd : ℤ) (oldpath : Addr) (newdfd : ℤ) (newpath : Addr) (flags : ℤ) (sqe : Sqe) :
    Sqe :=
  { ioUringPrepRw .renameat olddfd oldpath newdfd newpath sqe with opFlags := u32 flags }

/-- `io_uring_prep_cancel`, matching on `user_data`. -/
def ioUringPrepCancel (userData : Addr) (flags : ℤ) (sqe : Sqe) : Sqe :=
  { ioUringPrepRw .asyncCancel (-1) userData 0 0 sqe with opFlags := u32 flags }

def ioUringSqeSetData (data : Option ReqId) (sqe : Sqe) : Sqe := { sqe with userData := data }

/-- `prepare_sqring_op` of the twelve awaitables, reading the member of `specific_data` their
constructors wrote. -/
def prepareSqringOp : ParameterPack → Sqe → Sqe
  | .read d => ioUringPrepRead d.fd d.buffer d.length 0
  | .write d => ioUringPrepWrite d.fd d.buffer d.length 0
  | .close d => ioUringPrepClose d.fd
  | .shutdown d => ioUringPrepShutdown d.fd d.how
  | .readv d => ioUringPrepReadv d.fd d.iovs d.num 0
  | .writev d => ioUringPrepWritev d.fd d.iovs d.num 0
  | .accept d => ioUringPrepAccept d.sockfd d.addr d.addrlen 0
  | .connect d => ioUringPrepConnect d.sockfd d.addr d.addrlen
  | .openat d => ioUringPrepOpenat d.dirfd d.pathname d.flags d.mode
  | .statx d => ioUringPrepStatx d.dirfd d.pathname d.flags d.mask d.statxbuf
  | .unlinkat d => ioUringPrepUnlinkat d.dirfd d.pathname d.flags
  | .renameat d => ioUringPrepRenameat d.olddirfd d.oldpathname d.newdirfd d.newpathname d.flags

/-- The `io_uring_prep_*` calls in the cases of `process_single_generic_request`. -/
def prepGenericRequest : ParameterPack → Sqe → Sqe
  | .read pack => ioUringPrepRead pack.fd pack.buffer pack.length 0
  | .write pack => ioUringPrepWrite pack.fd pack.buffer pack.length 0
  | .close pack => ioUringPrepClose pack.fd
  | .shutdown pack => ioUringPrepShutdown pack.fd pack.how
  | .readv pack => ioUringPrepReadv pack.fd pack.iovs pack.num 0
  | .writev pack => ioUringPrepWritev pack.fd pack.iovs pack.num 0
  | .accept pack => ioUringPrepAccept pack.sockfd pack.addr pack.addrlen 0
  | .connect pack => ioUringPrepConnect pack.sockfd pack.addr pack.addrlen
  | .openat pack => ioUringPrepOpenat pack.dirfd pack.pathname pack.flags pack.mode
  | .statx pack => ioUringPrepStatx pack.dirfd pack.pathname pack.flags pack.mask pack.statxbuf
  | .unlinkat pack => ioUringPrepUnlinkat pack.dirfd pack.pathname pack.flags
  | .renameat pack => ioUringPrepRenameat pack.olddirfd pack.oldpathname pack.newdirfd pack.newpathname pack.flags

/-- The `io_uring_prep_*` calls of `read_na` to `renameat_na`. -/
def prepNa : ParameterPack → Sqe → Sqe
  | .read p => ioUringPrepRead p.fd p.buffer p.length 0
  | .write p => ioUringPrepWrite p.fd p.buffer p.length 0
  | .close p => ioUringPrepClose p.fd
  | .shutdown p => ioUringPrepShutdown p.fd p.how
  | .readv p => ioUringPrepReadv p.fd p.iovs p.num 0
  | .writev p => ioUringPrepWritev p.fd p.iovs p.num 0
  | .accept p => ioUringPrepAccept p.sockfd p.addr p.addrlen 0
  | .connect p => ioUringPrepConnect p.sockfd p.addr p.addrlen
  | .openat p => ioUringPrepOpenat p.dirfd p.pathname p.flags p.mode
  | .statx p => ioUringPrepStatx p.dirfd p.pathname p.flags p.mask p.statxbuf
  | .unlinkat p => ioUringPrepUnlinkat p.dirfd p.pathname p.flags
  | .renameat p => ioUringPrepRenameat p.olddirfd p.oldpathname p.newdirfd p.newpathname p.flags

/-! ### Request records -/

/-- `RequestData`.  `specificData` is the union, given as the member written last; a value-initialised
union has a zero `read_data`. -/
structure RequestData where
  handle : Option CoroId := none
  coroIdx : ℕ := 0
  coroFinished : Option StatusId := none
  reqType : RequestType := .read
  allocatedDynamic : Bool := false
  specificData : ParameterPack := .read {}
  deriving DecidableEq, Repr

/-- The pack `event_handler` publishes for a record and a result; `iovBase` is what it finds as
`iovs[0].iov_base` in the caller's memory.  `none` stands for a read of a union member that was not the
one written. -/
def responsePack (reqType : RequestType) (specificData : ParameterPack) (res : ℤ) (iovBase : Addr) :
    Option ResponsePack :=
  let errorNum := if res < 0 then -res else 0
  let ok := decide (0 ≤ res)
  match reqType, specificData with
  | .read, .read d =>
    some (.read { errorNum, reqFd := d.fd, bytesRead := if ok then res.toNat else 0
                  buff := if ok then d.buffer else 0 })
  | .write, .write d =>
    some (.write { errorNum, reqFd := d.fd, bytesWrote := if ok then res.toNat else 0 })
  | .close, .close d => some (.close { errorNum, reqFd := d.fd })
  | .shutdown, .shutdown d => some (.shutdown { errorNum, reqFd := d.fd })
  | .readv, .readv d =>
    some (.readv { errorNum, reqFd := d.fd, bytesRead := if ok then res.toNat else 0
                   buff := if ok && d.iovs != 0 && decide (0 < d.num) then iovBase else 0 })
  | .writev, .writev d =>
    some (.writev { errorNum, reqFd := d.fd, bytesWrote := if ok then res.toNat else 0 })
  | .accept, .accept d =>
    some (.accept { errorNum, reqFd := d.sockfd, fd := if ok then res else 0 })
  | .connect, .connect d => some (.connect { errorNum, reqFd := d.sockfd })
  | .openat, .openat _ => some (.openat { errorNum, reqFd := res })
  | .statx, .statx d => some (.statx { errorNum, reqFd := -1, pathname := d.pathname })
  | .unlinkat, .unlinkat d => some (.unlinkat { errorNum, reqFd := -1, pathname := d.pathname })
  | .renameat, .renameat d =>
    some (.renameat { errorNum, reqFd := -1, oldpathname := d.oldpathname, newpathname := d.newpathname })
  | _, _ => none

theorem exists_responsePack (p : ParameterPack) (res : ℤ) (b : Addr) :
    ∃ d, responsePack p.type p res b = some d ∧ d.type = p.type := by
  cases p <;> exact ⟨_, rfl, rfl⟩

/-- A pack has the type of the request it answers. -/
theorem type_of_responsePack {t : RequestType} {p : ParameterPack} {res : ℤ} {b : Addr} {d : ResponsePack}
    (h : responsePack t p res b = some d) : d.type = t := by
  cases t <;> cases p <;> first | exact Option.some.inj h ▸ rfl | simp [responsePack] at h

/-- The three ways of issuing a request prepare the same entry. -/
theorem prepGenericRequest_eq (p : ParameterPack) : prepGenericRequest p = prepareSqringOp p := by
  cases p <;> rfl

theorem prepNa_eq (p : ParameterPack) : prepNa p = prepareSqringOp p := by cases p <;> rfl

/-- Once `user_data` is set too, nothing is left of what the entry held before. -/
theorem ioUringSqeSetData_prepareSqringOp (d : Option ReqId) (p : ParameterPack) (sqe sqe' : Sqe) :
    ioUringSqeSetData d (prepareSqringOp p sqe) = ioUringSqeSetData d (prepareSqringOp p sqe') := by
  cases p <;> rfl

end EvManager
