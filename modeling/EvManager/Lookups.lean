import EvManager.Deals

/-!
# What `event_handler` looks up

`event_handler` follows `req_data` to a record and its `handle` to the promise of a coroutine, before it resumes
the coroutine and after.  With the frames of coroutines and the records as tables of objects, **`lookups_live`**
tells when each of these lookups finds its object.
-/

namespace EvManager

open Lib State

/-- An object of one of the two tables. -/
inductive Item
  | frame (h : CoroId)
  | record (r : ReqId)
  deriving DecidableEq

namespace State

/-- What `event_handler` looks up before it resumes: the record, and the promise its handle leads to. -/
def looksUp (s : State) : Option ReqId → List Item
  | none => []
  | some r => .record r :: ((s.reqs r).data.handle.map Item.frame).toList

/-- What `event_handler` looks up in a step: up to `req_data->handle.resume()` in the step that calls it, and the
rest where this returns. -/
def lookups (s : State) (c : Choice) : List Item :=
  match s.stack, c with
  | .start :: _, .message _ =>
    match s.ev.readyRequestsStore, s.ev.pollingHandle with
    | (_, r) :: _, some p => [.record r, .frame p]
    | _, _ => []
  | .awaitWait :: _, .cqe i _ _ =>
    match s.ev.ring.inFlight[i]? with
    | some x => s.looksUp x.sqe.userData
    | none => []
  | .eventHandler r h :: _, .tau => .record r :: if (s.reqs r).data.handle = none then [] else [.frame h]
  | _, _ => []

variable (held : ReqId → Prop) (s : State)

/-- The object is in its table.  A frame leaves when the coroutine finishes; a record on the heap when it is
deleted; a record in a frame with the frame, and that of an awaitable once its `co_await` has returned unless it is
`held`, by a variable or by an expression that is not at its end. -/
def Live : Item → Prop
  | .frame h => (s.coros h).place.unfinished = true
  | .record r =>
    match (s.reqs r).home with
    | .awaitable a => (s.reqs r).live = true ∨ held r ∧ ∃ h ∈ a, (s.coros h).place.unfinished = true
    | .vector _ | .heap => (s.reqs r).live = true

/-- The completion of `r` is one that is waited for: its coroutine is at the `co_await`, or its batch has not ended,
or it is the first since the request was accepted. -/
def Expected (r : ReqId) : Prop :=
  match (s.reqs r).home with
  | .awaitable a => ∃ h ∈ a, (s.coros h).place = .atIo r ∨ held r ∧ (s.coros h).place.unfinished = true
  | .vector h => (s.coros h).place.unfinished = true
  | .heap => .accepted r ∈ s.trace ∧ ∀ h res d, .resumed r h res d ∉ s.trace

/-- The completions `event_handler` is given are waited for, a poller that waits is not destroyed, and a coroutine
it has resumed has not finished and holds the awaitable it was resumed from. -/
def WaitedFor (c : Choice) : Prop :=
  match s.stack, c with
  | .start :: _, .message _ => ∀ y ∈ s.ev.readyRequestsStore.head?, ∀ p ∈ s.ev.pollingHandle,
    s.Expected held y.2 ∧ (s.coros p).place ≠ .gone
  | .awaitWait :: _, .cqe i _ _ => ∀ x ∈ s.ev.ring.inFlight[i]?, ∀ r ∈ x.sqe.userData, s.Expected held r
  | .eventHandler r h :: _, .tau => (s.coros h).place.unfinished = true ∧ ∀ a, (s.reqs r).home = .awaitable a → held r
  | _, _ => True

variable {s}

/-- While nothing is dispatched, a record of the heap is there just if its completion is the first. -/
theorem live_heap (hreach : Reachable s) (hno : ∀ r h, .eventHandler r h ∉ s.loops) {r : ReqId} (hr : r < s.nextReq)
    (hh : (s.reqs r).home = .heap) : (s.reqs r).live = true ↔ s.Expected held r := by
  unfold Expected
  rw [hreach.dealt.heap r hr hh, hh]
  simp only [hno, exists_false, imp_false]

theorem live_looksUp (hreach : Reachable s) (hno : ∀ r h, .eventHandler r h ∉ s.loops) {r : ReqId} (he : s.HasEntry r) :
    (∀ o ∈ s.looksUp (some r), s.Live held o) ↔ s.Expected held r := by
  have hrec := hreach.sound.records
  obtain ⟨hr, hentry⟩ := hrec.entry r he
  -- the coroutine that the handle leads to is the owner
  have hnames := fun h => hreach.handles r h
  have hmem : (∀ o ∈ s.looksUp (some r), s.Live held o) ↔ s.Live held (.record r) ∧
      ∀ h, (s.reqs r).data.handle = some h → (s.coros h).place.unfinished = true := by
    cases hh : (s.reqs r).data.handle <;> simp [looksUp, hh, Live]
  rw [hmem]
  simp only [Live, Expected]
  unfold Names at hnames
  cases hhome : (s.reqs r).home with
  | awaitable a =>
    rw [hhome] at hnames
    simp only at hnames ⊢
    obtain ⟨h, hh⟩ := Option.ne_none_iff_exists'.mp (hentry.resolve_left (by simp [hhome]))
    obtain rfl : a = some h := hnames h hh
    simp only [hh, Option.some.injEq, Option.mem_def, exists_eq_left', forall_eq']
    constructor
    · rintro ⟨hl | ⟨hheld, -⟩, hu⟩
      · have hserves := hrec.serves r h hl hh
        unfold State.Serves at hserves
        rw [hhome] at hserves
        exact .inl hserves.2
      · exact .inr ⟨hheld, hu⟩
    · rintro (hp | ⟨hheld, hu⟩)
      · exact ⟨.inl (hrec.atIo h r hp).1, by rw [hp]; rfl⟩
      · exact ⟨.inr ⟨hheld, hu⟩, hu⟩
  | vector h =>
    rw [hhome] at hnames
    simp only at hnames ⊢
    rw [(hreach.lives.vector r h hr hhome).2.2]
    exact and_iff_left_of_imp fun hu x hx => hnames x hx ▸ hu
  | heap =>
    rw [hhome] at hnames
    have h1 := live_heap held hreach hno hr hhome
    unfold Expected at h1
    rw [hhome] at h1
    simp only at hnames h1 ⊢
    rw [h1]
    refine and_iff_left_of_imp fun h2 h hh => ?_
    obtain ⟨res, d, hm⟩ := hnames h hh
    exact absurd hm (h2.2 h res d)

theorem live_return (hreach : Reachable s) {r : ReqId} {h : CoroId} {rest : List Activation}
    (hst : s.stack = .eventHandler r h :: rest) : s.Live held (.record r) ∧ s.Live held (.frame h) ↔
      (s.coros h).place.unfinished = true ∧ ∀ a, (s.reqs r).home = .awaitable a → held r := by
  have hd := hreach.dealt
  have hm : .eventHandler r h ∈ s.loops := by
    rw [State.loops, hst, List.filter_cons_of_pos rfl]
    exact List.mem_cons_self
  have hserv := hd.serving r h hm
  simp only [Live]
  rw [and_comm]
  refine and_congr_right fun hu => ?_
  cases hhome : (s.reqs r).home with
  | awaitable a =>
    obtain ⟨rfl, hl⟩ := hserv.awaitable a hhome
    simp [hl, hu]
  | vector x =>
    obtain rfl := hserv.vector x hhome
    simp [(hreach.lives.vector r x hserv.lt hhome).2.2, hu]
  | heap =>
    have hl : (s.reqs r).live = true :=
      (hd.heap r hserv.lt hhome).mpr ⟨hd.taken r h hm hhome, fun _ _ _ _ => ⟨h, hm⟩⟩
    simp [hl]

end State

/-- **What `event_handler` looks up**, before it resumes a coroutine and after, is there exactly if the completion
is waited for and, after, if the coroutine has not finished and still holds the awaitable. -/
theorem lookups_live {s : State} (hreach : Reachable s) (held : ReqId → Prop) (c : Choice) :
    (∀ o ∈ s.lookups c, s.Live held o) ↔ s.WaitedFor held c := by
  have hloop : ∀ {a rest}, s.stack = a :: rest → (a = .start ∨ a = .awaitWait) →
      ∀ r h, .eventHandler r h ∉ s.loops := by
    intro a rest hst ha r h hm
    rcases hreach.oneLoop.shape with hl | hl | ⟨b, hb, hl⟩ | ⟨x, y, b, hb, hl⟩
    · rw [hl] at hm
      cases hm
    · rw [hl] at hm
      simp at hm
    · rw [hl] at hm
      rcases List.mem_cons.mp hm with rfl | hm
      · cases hb
      · simp at hm
    · rw [State.loops, hst, List.filter_cons_of_pos (by rcases ha with rfl | rfl <;> rfl)] at hl
      rcases ha with rfl | rfl <;> cases (List.cons.inj hl).1
  unfold State.lookups State.WaitedFor
  split
  · rename_i rest base hst
    have hno := hloop hst (.inl rfl)
    cases hready : s.ev.readyRequestsStore with
    | nil => simp
    | cons y ready =>
      cases hp : s.ev.pollingHandle with
      | none => simp
      | some p =>
        have hy := hreach.sound.records.ready y (by rw [hready]; exact List.mem_cons_self)
        have hpl := (hreach.sound.records.polling p hp).2.2
        have hframe : (s.coros p).place.unfinished = true ↔ (s.coros p).place ≠ .gone := by
          rcases hpl with hpl | hpl <;> simp [hpl, Place.unfinished]
        have hrecord := live_heap held hreach hno hy.1 hy.2
        simp [State.Live, hy.2, hframe, hrecord]
  · rename_i rest i res base hst
    have hno := hloop hst (.inr rfl)
    cases hx : s.ev.ring.inFlight[i]? with
    | none => simp
    | some x =>
      cases hu : x.sqe.userData with
      | none => simp [State.looksUp, hu]
      | some r =>
        have h1 := live_looksUp held hreach hno (r := r) ⟨x, .inr (List.mem_of_getElem? hx), hu⟩
        simpa [hu] using h1
  · rename_i r h rest hst
    have hm : .eventHandler r h ∈ s.stack := by rw [hst]; exact List.mem_cons_self
    rw [if_neg (hreach.dispatched r h hm).2]
    simpa using live_return held hreach hst
  · simp

/-- A poller that waits again after the first request it is given. -/
theorem lookups_live_poll : ∃ s : State, s.lookups .tau = [.record 0, .frame 1] ∧
    ∀ o ∈ s.lookups .tau, s.Live (fun _ => False) o := by
  have he : (exec step (fun _ _ => True) (init 4)
    [.user (.na (.read {}) 1), .user .poll, .user (.startTask 0), .tau, .tau,
      .user .start, .message 0, .cqe 0 8 0, .tau, .message 0, .user (.handlerReturn false)]).map (fun s =>
        decide (s.stack.head? = some (.eventHandler 0 1) ∧ s.lookups .tau = [.record 0, .frame 1] ∧
          (s.coros 1).place.unfinished = true ∧ (s.reqs 0).home = .heap)) = some true := by decide
  obtain ⟨s, hreach, hs⟩ := Reach.of_exec (.up 4) he
  obtain ⟨hst, hl, hu, hh⟩ := of_decide_eq_true hs
  refine ⟨s, hl, (lookups_live hreach _ .tau).mpr ?_⟩
  obtain ⟨rest, hst⟩ := List.head?_eq_some_iff.mp hst
  unfold State.WaitedFor
  rw [hst]
  exact ⟨hu, fun a ha => by rw [hh] at ha; cases ha⟩

/-- A coroutine that is resumed with the bytes of a read and returns: when `event_handler` asks whether it is done,
its frame is destroyed, and with it the record. -/
theorem lookups_live_fails : ¬ ∀ (s : State) (held : ReqId → Prop) (c : Choice), Reachable s →
    ∀ o ∈ s.lookups c, s.Live held o := by
  have he : (exec step (fun _ _ => True) (init 4)
    [.user .call, .user (.startTask 0), .user (.awaitOp (.read ⟨3, 100, 8⟩)),
      .sub 1, .tau, .user .start, .message 0, .cqe 0 8 0, .user (.coReturn 0), .tau]).map (fun s =>
        decide (s.lookups .tau = [.record 0, .frame 1] ∧ (s.coros 1).place = .gone)) = some true := by decide
  obtain ⟨s, hreach, hs⟩ := Reach.of_exec (.up 4) he
  obtain ⟨hl, hg⟩ := of_decide_eq_true hs
  intro hall
  have h1 : (s.coros 1).place.unfinished = true := hall s (fun _ => True) .tau hreach (.frame 1) (by simp [hl])
  rw [hg] at h1
  cases h1

end EvManager
