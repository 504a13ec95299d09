import EvManager.Task

/-!
# Issuing requests

The awaitable operations, the `_na` operations, batch submission and polling: `event_loop/io_ops.cpp` and
`coroutine/io_awaitables.hpp`, with the functions of `core.cpp` they use to reach the ring.  What
`io_uring_submit` returns is a parameter `ret`; when it is positive it is the number of entries the kernel
takes, the oldest first.
-/

namespace EvManager

open Lib ErrorProcessing

/-- An awaitable for `p` that was given the entry `sqe` and is an object of `ctx`. -/
def Request.awaitable (ctx : Option CoroId) (p : ParameterPack) (sqe : Option ℕ) : Request where
  data := { reqType := p.type, specificData := p }
  live := true
  home := .awaitable ctx
  error := if sqe = none then .eventManagerErr .submissionQueueFull else .noErr
  sqe := sqe

/-- What `await_suspend` stores in the record, for the coroutine `h` with promise `p`. -/
def RequestData.await (h : CoroId) (p : Promise) (d : RequestData) : RequestData :=
  { d with handle := some h, coroIdx := p.metadata, coroFinished := p.taskStatusPtr }

/-- What `process_single_generic_request` stores in the record. -/
def RequestData.queue (handle : CoroId) (req : ParameterPack) (d : RequestData) : RequestData :=
  { d with handle := some handle, reqType := req.type, allocatedDynamic := false, specificData := req }

/-- `new RequestData{}`, with the type of `p`. -/
def Request.allocated (p : ParameterPack) : Request where
  data := { reqType := p.type, allocatedDynamic := true }
  live := true
  home := .heap

namespace State

/-! ### The ring -/

/-- `should_restrict_usage`. -/
def shouldRestrictUsage (s : State) : Bool := LivingState.living.rank < s.ev.managerLifeState.rank

def setRing (ring : Uring Slot) (s : State) : State := s.modEv fun ev => { ev with ring := ring }

/-- `io_uring_get_sqe`, for the purpose `p`. -/
def ioUringGetSqe (p : Purpose) (s : State) : Except Stop (Option ℕ × State) :=
  if s.ev.ringUp then
    match s.ev.ring.getSqe (Slot.hand p) with
    | some (j, ring) => .ok (some j, s.setRing ring)
    | none => .ok (none, s)
  else .error (.undefined .ringDown)

/-- `get_uring_sqe`. -/
def getUringSqe (p : Purpose) (s : State) : Except Stop (Option ℕ × State) :=
  if s.shouldRestrictUsage then .ok (none, s) else s.ioUringGetSqe p

/-- A write through a pointer to an entry. -/
def writeSqe (j : ℕ) (f : Slot → Slot) (s : State) : State := s.setRing (s.ev.ring.write j f)

/-- `submit_queued_entries`, which returns `ret`.  The kernel takes no more than there is, and `ret` is
an `int`. -/
def submitQueuedEntries (ret : ℤ) (s : State) : Except Stop State :=
  if s.ev.ringUp then
    if -2 ^ 31 ≤ ret ∧ ret ≤ s.ev.ring.pending.length then
      .ok (s.modEv fun ev =>
        { ev with
          ring := ev.ring.submit ret.toNat
          inFlightRequests := if 0 < ret then ev.inFlightRequests + ret.toNat else ev.inFlightRequests })
    else .error .disabled
  else .error (.undefined .ringDown)

/-! ### Awaitables -/

/-- A new request record, and its address. -/
def newReq (q : Request) (s : State) : ReqId × State :=
  (s.nextReq, { s with reqs := Function.update s.reqs s.nextReq q, nextReq := s.nextReq + 1 })

/-- The constructor of an awaitable for `p`, which becomes an object of `ctx`.  `ev` tells whether the
`EventManager*` it is given is not null. -/
def ioAwaitable (ev : Bool) (ctx : Option CoroId) (p : ParameterPack) (s : State) :
    Except Stop (ReqId × State) :=
  if ev then do
    let (sqe, s) ← s.getUringSqe (.request p s.nextReq)
    let (r, s) := s.newReq (.awaitable ctx p sqe)
    return (r, match ctx with
      | some c => s.modCoro c fun c => { c with reqs := c.reqs ++ [r] }
      | none => s)
  else .error (.undefined .nullManager)

/-- `EventManager::read` to `EventManager::renameat`.  Past LIVING they return a default awaitable, which
is made with a null `EventManager*`. -/
def ioOp (ctx : Option CoroId) (p : ParameterPack) (s : State) : Except Stop (ReqId × State) :=
  if s.shouldRestrictUsage then s.ioAwaitable false ctx p else s.ioAwaitable true ctx p

section Ops

variable (ctx : Option CoroId)

def read (fd : ℤ) (buffer : Addr) (length : ℕ) := ioOp ctx (.read ⟨fd, buffer, length⟩)
def write (fd : ℤ) (buffer : Addr) (length : ℕ) := ioOp ctx (.write ⟨fd, buffer, length⟩)
def close (fd : ℤ) := ioOp ctx (.close ⟨fd⟩)
def shutdown (fd how : ℤ) := ioOp ctx (.shutdown ⟨fd, how⟩)
def readv (fd : ℤ) (iovs : Addr) (num : ℕ) := ioOp ctx (.readv ⟨fd, iovs, num⟩)
def writev (fd : ℤ) (iovs : Addr) (num : ℕ) := ioOp ctx (.writev ⟨fd, iovs, num⟩)
def accept (sockfd : ℤ) (addr addrlen : Addr) := ioOp ctx (.accept ⟨sockfd, addr, addrlen⟩)
def connect (sockfd : ℤ) (addr : Addr) (addrlen : ℕ) := ioOp ctx (.connect ⟨sockfd, addr, addrlen⟩)
def openat (dirfd : ℤ) (pathname : Addr) (flags : ℤ) (mode : ℕ) :=
  ioOp ctx (.openat ⟨dirfd, pathname, flags, mode⟩)
def statx (dirfd : ℤ) (pathname : Addr) (flags : ℤ) (mask : ℕ) (statxbuf : Addr) :=
  ioOp ctx (.statx ⟨dirfd, pathname, flags, mask, statxbuf⟩)
def unlinkat (dirfd : ℤ) (pathname : Addr) (flags : ℤ) := ioOp ctx (.unlinkat ⟨dirfd, pathname, flags⟩)
def renameat (olddirfd : ℤ) (oldpathname : Addr) (newdirfd : ℤ) (newpathname : Addr) (flags : ℤ) :=
  ioOp ctx (.renameat ⟨olddirfd, oldpathname, newdirfd, newpathname, flags⟩)

end Ops

/-- The running coroutine `h` co_awaits its awaitable `r`: `await_ready`, then `await_suspend` up to its
call of `submit_queued_entries`. -/
def awaitIo (h : CoroId) (r : ReqId) (s : State) : Except Stop State :=
  let q := s.reqs r
  let c := s.coros h
  if r ∈ c.reqs ∧ q.live ∧ q.home = .awaitable (some h) ∧ q.data.handle = none then
    if isThereAnError q.error then .ok (s.ioReturn h r)
    else if s.ev.ringUp then
      match q.sqe with
      | some j =>
        let s := s.modReq r fun q => { q with data := q.data.await h c.promise }
        let s := s.writeSqe j fun x => (x.prep (prepareSqringOp q.data.specificData)).setData (some r)
        .ok ((s.suspend h (.atIo r)).push (.ioSubmit h r))
      | none => .error .disabled
    else .error (.undefined .ringDown)
  else .error .disabled

/-- The rest of `IOAwaitable::await_suspend`. -/
def ioSubmit (h : CoroId) (r : ReqId) (ret : ℤ) (s : State) : Except Stop State := do
  let s ← s.pop.submitQueuedEntries ret
  if ret < 1 then
    resume h none (s.modReq r fun q => { q with error := setErrorFromNum .liburingSubmissionErrErrno q.error (-ret) })
  else return s

/-! ### Operations that are not awaited -/

/-- `submit_request`, which is given a record on the heap. -/
def submitRequest (sqe : ℕ) (r : ReqId) (ret : ℤ) (s : State) : Except Stop (Errnos × State) := do
  let s ← (s.writeSqe sqe (Slot.setData (some r))).submitQueuedEntries ret
  if ret < 1 then
    let s := if (s.reqs r).data.allocatedDynamic then
        (s.modReq r fun q => { q with live := false }).log (.deleted r)
      else s
    return (Errnos.cast (-ret), s)
  else return (Errnos.unknownError, s.log (.accepted r))

/-- `get_sqe_and_req_data`.  The pack is noted with the slot; the code gets to it only afterwards. -/
def getSqeAndReqData (p : ParameterPack) (s : State) : Except Stop (Option (ℕ × ReqId) × State) := do
  match ← s.getUringSqe (.request p s.nextReq) with
  | (none, s) => return (none, s)
  | (some sqe, s) =>
    let (r, s) := s.newReq (.allocated p)
    return (some (sqe, r), s)

/-- `read_na` to `renameat_na`. -/
def naOp (p : ParameterPack) (ret : ℤ) (s : State) : Except Stop (Errnos × State) := do
  match ← s.getSqeAndReqData p with
  | (none, s) => return (Errnos.unknownError, s)
  | (some (sqe, r), s) =>
    let s := s.modReq r fun q => { q with data := { q.data with specificData := p } }
    (s.writeSqe sqe (Slot.prep (prepNa p))).submitRequest sqe r ret

def readNa (fd : ℤ) (buffer : Addr) (length : ℕ) := naOp (.read ⟨fd, buffer, length⟩)
def writeNa (fd : ℤ) (buffer : Addr) (length : ℕ) := naOp (.write ⟨fd, buffer, length⟩)
def closeNa (fd : ℤ) := naOp (.close ⟨fd⟩)
def shutdownNa (fd how : ℤ) := naOp (.shutdown ⟨fd, how⟩)
def readvNa (fd : ℤ) (iovs : Addr) (num : ℕ) := naOp (.readv ⟨fd, iovs, num⟩)
def writevNa (fd : ℤ) (iovs : Addr) (num : ℕ) := naOp (.writev ⟨fd, iovs, num⟩)
def acceptNa (sockfd : ℤ) (addr addrlen : Addr) := naOp (.accept ⟨sockfd, addr, addrlen⟩)
def connectNa (sockfd : ℤ) (addr : Addr) (addrlen : ℕ) := naOp (.connect ⟨sockfd, addr, addrlen⟩)
def openatNa (dirfd : ℤ) (pathname : Addr) (flags : ℤ) (mode : ℕ) :=
  naOp (.openat ⟨dirfd, pathname, flags, mode⟩)
def statxNa (dirfd : ℤ) (pathname : Addr) (flags : ℤ) (mask : ℕ) (statxbuf : Addr) :=
  naOp (.statx ⟨dirfd, pathname, flags, mask, statxbuf⟩)
def unlinkatNa (dirfd : ℤ) (pathname : Addr) (flags : ℤ) := naOp (.unlinkat ⟨dirfd, pathname, flags⟩)
def renameatNa (olddirfd : ℤ) (oldpathname : Addr) (newdirfd : ℤ) (newpathname : Addr) (flags : ℤ) :=
  naOp (.renameat ⟨olddirfd, oldpathname, newdirfd, newpathname, flags⟩)

/-! ### Batch submission -/

/-- `process_single_generic_request`, for the element `r` of the vector and the coroutine `handle`. -/
def processSingleGenericRequest (req : ParameterPack) (r : ReqId) (handle : CoroId) (s : State) :
    Except Stop (Bool × State) := do
  match ← s.getUringSqe (.request req r) with
  | (none, s) => return (false, s)
  | (some sqe, s) =>
    let s := s.modReq r fun q => { q with data := q.data.queue handle req }
    return (true, s.writeSqe sqe fun x => (x.prep (prepGenericRequest req)).setData (some r))

/-- The loop of `submit_and_wait` over the queue, which ignores what the calls return. -/
def processRequests (handle : CoroId) : List (ParameterPack × ReqId) → State → Except Stop State
  | [], s => .ok s
  | (req, r) :: l, s => do
    let (_, s) ← s.processSingleGenericRequest req r handle
    processRequests handle l s

/-- `std::vector<RequestData> req_data{n}` in the frame of `h`, and the addresses of its elements. -/
def newVector (h : CoroId) (n : ℕ) (s : State) : List ReqId × State :=
  let rs := List.range' s.nextReq n
  (rs, { s.modCoro h fun c => { c with reqs := c.reqs ++ rs } with
    reqs := fun r => if r ∈ rs then { live := true, home := .vector h } else s.reqs r
    nextReq := s.nextReq + n })

/-- The running coroutine `h` is in `submit_and_wait`, where `num_submitted` and `num_queued` are looked
at: the end, another submit with result `ret`, or the wait for a response. -/
def submitAndWaitLoop (h : CoroId) (q : RequestQueue) (l : BatchLocals) (ret : Option ℤ) (s : State) :
    Except Stop State :=
  if l.numSubmitted = 0 ∧ l.numQueued = 0 then
    if ret = none then s.finish h (some 0) else .error .disabled
  else if l.numSubmitted = 0 then
    match ret with
    | some ret => do
      let s ← s.submitQueuedEntries ret
      if ret < 0 then s.finish h (some (u64 ret))
      else
        return s.setBody h (.submitAndWait q
          { l with numSubmitted := l.numSubmitted + ret.toNat, numQueued := u32 (l.numQueued - ret) })
    | none => .error .disabled
  else if ret = none then
    .ok ((s.setBody h (.submitAndWait q { l with pc := .await 0 })).suspend h .atGeneric)
  else .error .disabled

/-- The beginning of `submit_and_wait`, whose first submit returns `ret`. -/
def submitAndWaitBegin (h : CoroId) (q : RequestQueue) (ret : ℤ) (s : State) : Except Stop State := do
  let s ← s.submitQueuedEntries ret
  if ret < 0 then s.finish h (some (u64 ret))
  else
    let (reqData, s) := s.newVector h q.length
    let s ← processRequests h (q.zip reqData) s
    return s.setBody h (.submitAndWait q
      { pc := .loop, reqData, numSubmitted := ret.toNat, numQueued := u32 s.ev.ring.unpublished })

/-- The handler of a batch returns: the `for` loop goes on or ends. -/
def submitAndWaitNext (h : CoroId) (q : RequestQueue) (l : BatchLocals) (i : ℕ) (s : State) : State :=
  if i + 1 < l.numSubmitted then
    (s.setBody h (.submitAndWait q { l with pc := .await (i + 1) })).suspend h .atGeneric
  else s.setBody h (.submitAndWait q { l with pc := .loop, numSubmitted := 0 })

/-! ### Polling -/

/-- The running coroutine `h` sets `_polling_handle` and waits for a response. -/
def pollWait (h : CoroId) (s : State) : State :=
  ((s.modEv fun ev => { ev with pollingHandle := some h }).setBody h (.poll .waiting)).suspend h .atGeneric

/-- The beginning of `poll`. -/
def pollBegin (h : CoroId) (s : State) : Except Stop State :=
  if s.ev.pollingRequests then s.finish h (some (u64 (-1)))
  else .ok ((s.modEv fun ev => { ev with pollingRequests := true }).pollWait h)

/-- The handler of `poll` returns. -/
def pollNext (h : CoroId) (stop : Bool) (s : State) : Except Stop State :=
  if stop then (s.modEv fun ev => { ev with pollingRequests := false }).finish h (some 0)
  else .ok (s.pollWait h)

end State

end EvManager
