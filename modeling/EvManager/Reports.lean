import EvManager.Calls
import EvManager.TaskRun

/-!
# What a batch reports

`submit_and_wait` yields 0 when it believes that all its requests were answered.  **`batch_reports`**: so they
were, if each of them got an entry, no entry with the address of one of their records was taken before it was
written, and the handler did not throw.
-/

namespace EvManager

open Lib State

/-! ### What a `co_await` on a task yields -/

/-- Who is told that a task returned is told what its body returned, or the task holds no coroutine any more. -/
theorem TaskStep.yields {m m' : Tasks} {l : TaskLabel} (hs : TaskStep m l m') (hh : m.History)
    (htarget : ∀ a t h b e, m.place a = .atTask t h b → m.task t = some e → e.handle = some h ∨ e.handle = none)
    {a x : CoroId} {t : TaskRef} {v : ℕ} (hm : .taskReturned a t x v ∈ m'.log) : .taskReturned a t x v ∈ m.log ∨
      (∃ e, m'.task t = some e ∧ e.handle = none) ∨ ∃ out, .returned x out ∈ m'.log ∧ ∀ y, out = some y → y = v := by
  have hstart : ∀ {n : Tasks} {t : TaskRef}, Started n t m' → n.log = m.log → m'.log = m.log := by
    intro n t h1 hlog
    rw [← hlog]
    cases h1 <;> rfl
  have hdone : ∀ {h : CoroId} {t : TaskRef} {e : EvTask}, m.task t = some e → e.handle = some h → m.done h = true →
      ∃ out, .returned h out ∈ m.log ∧ ∀ y, out = some y → y = m.code h := by
    intro h t e he hhe hd
    obtain ⟨out, hout⟩ := hh.ended h (.inr hd)
    refine ⟨out, hout, fun y hy => ?_⟩
    subst hy
    exact (hh.code h y hout ⟨t, e, he, hhe⟩).symm
  cases hs with
  | start h1 | register h1 => exact .inl (hstart h1 rfl ▸ hm)
  | beginStart _ _ _ _ _ h1 => exact .inl (hstart h1 rfl ▸ hm)
  | beginDone _ _ he _ hhe hd | tailDone _ _ he hhe hd =>
    rcases List.mem_cons.mp hm with h1 | h1
    · cases h1
      obtain ⟨out, hout, hy⟩ := hdone he hhe hd
      exact .inr (.inr ⟨out, List.mem_cons_of_mem _ hout, hy⟩)
    · exact .inl h1
  | finish _ _ h1 =>
    cases h1 with
    | mk => exact .inl ((List.mem_cons.mp hm).resolve_left (by simp))
  | @finishResume _ h b out t' e y m₁ _ _ hp h1 he hy =>
    cases h1 with
    | @mk rest code task hcalls hrun hlt hcode hval hfew =>
      rcases List.mem_cons.mp hm with h2 | h2
      · cases h2
        have he0 : m.task t = some e := hfew.2 t e he
        rcases htarget a t x true e hp he0 with hhe | hhe
        · refine .inr (.inr ⟨out, List.mem_cons_of_mem _ List.mem_cons_self, fun z hz => ?_⟩)
          exact (hval z hz ⟨t, e, he0, hhe⟩).symm.trans (hy hhe).symm
        · exact .inr (.inl ⟨e, he, hhe⟩)
      · exact .inl ((List.mem_cons.mp h2).resolve_left (by simp))
  | _ => exact .inl hm

namespace State

variable {s s' : State} {c : Choice} {x : CoroId} {q : RequestQueue} {l : BatchLocals} {r : ReqId}

theorem tasks_target (hso : Sound s) (a : CoroId) (t : TaskRef) (h : CoroId) (b : Bool) (e : EvTask)
    (hp : s.tasks.place a = .atTask t h b) (he : s.tasks.task t = some e) : e.handle = some h ∨ e.handle = none := by
  rcases hso with hc | ⟨s0, y, r, hc, -, rfl⟩
  · exact hc.awaits.target a t h b hp e he
  · refine hc.awaits.target a t h b hp e ?_
    cases t <;> exact he

theorem mem_log {e : Event} (he : e.ofTask = true) : e ∈ s.tasks.log ↔ e ∈ s.trace := by
  simp [State.tasks, List.mem_filter, he]

/-- A `co_await` that yields 0 was on a body that returned 0, or that an exception has left. -/
def Yields (s : State) : Prop := ∀ a t x, Event.taskReturned a t x 0 ∈ s.trace →
  .returned x (some 0) ∈ s.trace ∨ .returned x none ∈ s.trace

theorem Yields.step (hy : Yields s) (hreach : Reachable s) (hs : State.step s c = .ok s') : Yields s' := by
  intro a t x hm
  by_cases h0 : Event.taskReturned a t x 0 ∈ s.trace
  · exact (hy a t x h0).imp (step_mem hs) (step_mem hs)
  rcases (step_tasks hreach.sound hreach.killing hs).yields hreach.history.1 (tasks_target hreach.sound)
    ((mem_log rfl).mpr hm) with
    h1 | ⟨e, he, hh⟩ | ⟨out, hout, hv⟩
  · exact absurd ((mem_log rfl).mp h1) h0
  · -- the task holds nothing: the code is not 0
    exfalso
    have hheard : ∀ {v : ℕ}, .taskReturned a t x v ∈ s'.heard ↔ .taskReturned a t x v ∈ s'.trace := by
      intro v
      simp [heard, List.mem_filter, Event.isHeard]
    have hheard0 : .taskReturned a t x 0 ∉ s.heard := fun h1 => h0 (List.mem_filter.mp h1).1
    have hnew := hheard.mpr hm
    cases step_hears hreach hs with
    | mute h1 => exact hheard0 (h1 ▸ hnew)
    | @answered a' t' child e' he' h1 =>
      rw [h1] at hnew
      rcases List.mem_cons.mp hnew with h2 | h2
      · simp only [Event.taskReturned.injEq] at h2
        obtain ⟨rfl, rfl, rfl, h2⟩ := h2
        obtain rfl : e = e' := Option.some.inj ((show s'.task t = some e from he).symm.trans he')
        have hp : e.taskStatusPtr = none := ((hreach.step hs).sound.linked.paired (.task t) e he').trans hh
        rw [State.retCode, hp] at h2
        simp [u64] at h2
      · exact hheard0 h2
    | @refused u h r hh1 _ _ he1 =>
      obtain ⟨resp, h1⟩ := heard_ioReturn h r u
      rw [he1, h1, hh1.heard] at hnew
      exact hheard0 ((List.mem_cons.mp hnew).resolve_left (by simp))
    | failed _ _ _ h1 =>
      rw [h1] at hnew
      exact hheard0 ((List.mem_cons.mp hnew).resolve_left (by simp))
    | delivers _ hd =>
      obtain ⟨e1, h1, ht⟩ := hd.takes
      rw [h1] at hnew
      have hne : e1 ≠ .taskReturned a t x 0 := by
        cases ht <;> simp
      exact hheard0 ((List.mem_cons.mp ((List.mem_cons.mp hnew).resolve_left hne.symm)).resolve_left (by simp))
  · cases out with
    | none => exact .inr ((mem_log rfl).mp hout)
    | some y => exact .inl (hv y rfl ▸ (mem_log rfl).mp hout)

end State

theorem Reachable.yields {s : State} (h : Reachable s) : s.Yields := by
  refine Reach.inv_of (J := fun s => Reachable s) (fun s hs => hs) (fun s hi a t x hm => ?_) ?_ h
  · have ht : s.trace = [] := by cases hi <;> rfl
    rw [ht] at hm
    cases hm
  · exact fun s c s' hreach hy _ hs => hy.step hreach hs

/-! ### A batch whose requests all get an entry -/

/-- The queue that a batch was called with. -/
def Body.requests : Body → RequestQueue
  | .submitAndWait q _ => q
  | _ => []

namespace State

variable {s s' : State} {c : Choice} {x : CoroId} {q : RequestQueue} {l : BatchLocals} {r : ReqId}

/-- A record with a request gets at most as many entries as it is on the list. -/
theorem processRequests_queuedFor_le {h : CoroId} {l : List (ParameterPack × ReqId)} (r : ReqId) : ∀ {s s' : State},
    s.processRequests h l = .ok s' → s'.queuedFor [r] ≤ s.queuedFor [r] + (l.map Prod.snd).count r := by
  induction l with
  | nil =>
    intro s s' hs
    cases hs
    exact Nat.le_add_right ..
  | cons y l ih =>
    intro s s' hs
    obtain ⟨req, a⟩ := y
    obtain ⟨⟨b, s1⟩, h1, h2⟩ := bind_ok.mp hs
    have h3 := ih h2
    rw [List.map_cons, List.count_cons]
    show _ ≤ _ + (_ + if a == r then 1 else 0)
    rcases processSingleGenericRequest_ok h1 with ⟨-, -, rfl⟩ | ⟨-, -, -, j, ring, hr, rfl⟩
    · omega
    · have hone : ((s.setRing ring).modReq a fun q => { q with data := q.data.queue h req }).queuedFor [r] =
          s.queuedFor [r] + if a == r then 1 else 0 := by
        show ring.pending.countP (Slot.postedFor [r]) = _
        rw [(Uring.getSqe_pending hr).1, List.countP_append, queuedFor]
        by_cases har : a = r <;> simp [Slot.postedFor, queuedSlot, Slot.setData, ioUringSqeSetData, Slot.among, har]
      omega

/-- The records that are on no list stay as they are. -/
theorem processRequests_other {h : CoroId} {l : List (ParameterPack × ReqId)} (hr : r ∉ l.map Prod.snd) :
    ∀ {s s' : State},
    s.processRequests h l = .ok s' → s'.reqs r = s.reqs r := by
  induction l with
  | nil =>
    intro s s' hs
    cases hs
    rfl
  | cons y l ih =>
    intro s s' hs
    obtain ⟨req, a⟩ := y
    obtain ⟨⟨b, s1⟩, h1, h2⟩ := bind_ok.mp hs
    rw [List.map_cons, List.mem_cons, not_or] at hr
    rw [ih hr.2 h2]
    rcases processSingleGenericRequest_ok h1 with ⟨-, -, rfl⟩ | ⟨-, -, -, j, ring, -, rfl⟩
    · rfl
    · exact Function.update_of_ne hr.1 _ _

/-- **Where there is room for all requests**, each gets an entry, and its record the type and the parameters. -/
theorem processRequests_all {h : CoroId} {l : List (ParameterPack × ReqId)} (hnodup : (l.map Prod.snd).Nodup) :
    ∀ {s s' : State},
    s.shouldRestrictUsage = false → s.ev.ring.pending.length + l.length ≤ s.ev.ring.entries →
    s.processRequests h l = .ok s' →
      s'.ev.ring.unpublished = s.ev.ring.unpublished + l.length ∧
      ∀ p r, (p, r) ∈ l → (s'.reqs r).data.reqType = p.type ∧ (s'.reqs r).data.specificData = p := by
  induction l with
  | nil =>
    intro s s' _ _ hs
    cases hs
    exact ⟨rfl, by simp⟩
  | cons y l ih =>
    intro s s' hlive hroom hs
    obtain ⟨req, a⟩ := y
    rw [List.map_cons, List.nodup_cons] at hnodup
    obtain ⟨⟨b, s1⟩, h1, h2⟩ := bind_ok.mp hs
    rw [List.length_cons] at hroom
    rcases processSingleGenericRequest_ok h1 with ⟨-, hna, -⟩ | ⟨-, -, -, j, ring, hr, rfl⟩
    · exact absurd ⟨hlive, by omega⟩ hna
    · have hpend : ring.pending.length = s.ev.ring.pending.length + 1 := by simp [(Uring.getSqe_pending hr).1]
      have hent : ring.entries = s.ev.ring.entries := Uring.getSqe_entries hr
      have hunp : ring.unpublished = s.ev.ring.unpublished + 1 := Uring.getSqe_unpublished hr
      obtain ⟨hu, hdata⟩ :=
        ih hnodup.2 (s := (s.setRing ring).modReq a fun q => { q with data := q.data.queue h req }) hlive
        (show ring.pending.length + l.length ≤ ring.entries by omega) h2
      refine ⟨hu.trans ?_, fun p r hm => ?_⟩
      · show ring.unpublished + l.length = _
        rw [hunp, List.length_cons]
        omega
      · rcases List.mem_cons.mp hm with hm | hm
        · cases hm
          rw [processRequests_other hnodup.1 h2]
          simp [modReq, RequestData.queue]
        · exact hdata p r hm

/-! ### The tally of a batch -/

/-- The call told the handler of `x` of the response to the request `p` with the record `r`. -/
def Told (s : State) (x : CoroId) (p : ParameterPack) (r : ReqId) (e : Event) : Prop :=
  ∃ res base d, e = .handled x (some r) (some p.type) (some d) ∧ responsePack p.type p res base = some d ∧
    .completed r res ∈ s.trace

/-- The handler of `x` was called exactly once for each request of the queue, with its type and its response. -/
def Reported (s : State) (x : CoroId) (q : RequestQueue) : Prop :=
  ∃ rs : List ReqId, rs.Nodup ∧ rs.length = q.length ∧ (s.calls x).length = q.length ∧
    ∀ p r, (p, r) ∈ q.zip rs → ∃ e, ((s.calls x).filter fun e => e.cause = some r) = [e] ∧ s.Told x p r e

/-- What the handler was called for, and what the counters of the batch make of it; `n` is how many entries it has
counted off `num_queued`. -/
structure Tally (s : State) (x : CoroId) (q : RequestQueue) (l : BatchLocals) : Prop where
  share : ∀ r ∈ l.reqData, s.share x r ≤ 1
  told : ∀ e ∈ s.calls x, ∃ p r, (p, r) ∈ q.zip l.reqData ∧ s.Told x p r e
  data : ∀ p r, (p, r) ∈ q.zip l.reqData → (s.reqs r).data.reqType = p.type ∧ (s.reqs r).data.specificData = p
  counts : l.pc ≠ .begin → q.length < 2 ^ 32 ∧ ∃ n : ℕ, l.numQueued = u32 ((q.length : ℤ) - n) ∧
    n + l.answered ≤ (s.calls x).length + l.numSubmitted

theorem Told.mono {p : ParameterPack} {e : Event} (h : s.Told x p r e) (hs : State.step s c = .ok s') :
    s'.Told x p r e := by
  obtain ⟨res, base, d, he, hd, hm⟩ := h
  exact ⟨res, base, d, he, hd, step_mem hs hm⟩

theorem Reported.mono (h : s.Reported x q) (hs : State.step s c = .ok s') (hc : s'.calls x = s.calls x) :
    s'.Reported x q := by
  obtain ⟨rs, hn, hl, hlen, hall⟩ := h
  rw [← hc] at hlen hall
  refine ⟨rs, hn, hl, hlen, fun p r hm => ?_⟩
  obtain ⟨e, he, ht⟩ := hall p r hm
  exact ⟨e, he, ht.mono hs⟩

theorem Tally.reported (ht : s.Tally x q l) (hv : s.Vector x q l) (hpc : l.pc ≠ .begin)
    (hlen : q.length ≤ (s.calls x).length) :
    s.Reported x q := by
  have hcause : ∀ e ∈ s.calls x, ∃ r ∈ l.reqData, e.cause = some r := by
    intro e he
    obtain ⟨p, r, hm, res, base, d, rfl, -⟩ := ht.told e he
    exact ⟨r, (List.of_mem_zip hm).2, rfl⟩
  have hcount : ∀ r, ((s.calls x).map Event.cause).count (some r) = (s.calls x).countP fun e => e.cause = some r := by
    intro r
    rw [List.count, List.countP_map]
    exact List.countP_congr fun e _ => by simp
  have hnodup : ((s.calls x).map Event.cause).Nodup := by
    refine List.nodup_iff_count_le_one.mpr fun a => ?_
    by_cases ha : a ∈ (s.calls x).map Event.cause
    · obtain ⟨e, he, rfl⟩ := List.mem_map.mp ha
      obtain ⟨r, hr, hce⟩ := hcause e he
      rw [hce, hcount]
      exact (Nat.le_add_left ..).trans (ht.share r hr)
    · rw [List.count_eq_zero_of_not_mem ha]
      exact Nat.zero_le 1
  have hsub : (s.calls x).map Event.cause ⊆ l.reqData.map some := by
    intro a ha
    obtain ⟨e, he, rfl⟩ := List.mem_map.mp ha
    obtain ⟨r, hr, hce⟩ := hcause e he
    exact List.mem_map.mpr ⟨r, hr, hce.symm⟩
  have hperm : ((s.calls x).map Event.cause).Perm (l.reqData.map some) := by
    refine (hnodup.subperm hsub).perm_of_length_le ?_
    rw [List.length_map, List.length_map, hv.length hpc]
    exact hlen
  have hlen' : (s.calls x).length = q.length := by
    have h1 := hperm.length_eq
    rw [List.length_map, List.length_map, hv.length hpc] at h1
    exact h1
  refine ⟨l.reqData, hv.nodup, hv.length hpc, hlen', fun p r hm => ?_⟩
  have hr : r ∈ l.reqData := (List.of_mem_zip hm).2
  have hone : ((s.calls x).filter fun e => e.cause = some r).length = 1 := by
    rw [← List.countP_eq_length_filter, ← hcount, hperm.count_eq]
    exact List.count_eq_one_of_mem (hv.nodup.map (Option.some_injective _)) (List.mem_map_of_mem hr)
  obtain ⟨e, he⟩ := List.length_eq_one_iff.mp hone
  refine ⟨e, he, ?_⟩
  have hmem : e ∈ (s.calls x).filter fun e => e.cause = some r := by
    rw [he]
    exact List.mem_singleton_self e
  obtain ⟨hcall, hce⟩ := List.mem_filter.mp hmem
  obtain ⟨p', r', hm', htold⟩ := ht.told e hcall
  obtain ⟨res, base, d, rfl, hd⟩ := htold
  obtain rfl : r' = r := by simpa [Event.cause] using hce
  obtain rfl : p' = p := (ht.data p' r' hm').2.symm.trans (ht.data p r' hm).2
  exact ⟨res, base, d, rfl, hd⟩

/-- Where the batch begins, its first submit fails or leaves room for all its requests. -/
def Fits (q : RequestQueue) (s : State) (c : Choice) : Prop :=
  ∀ ret ∈ c.ret, ret < 0 ∨ q.length < 2 ^ 32 ∧ (q = [] ∨ s.shouldRestrictUsage = false ∧
    s.ev.ring.pending.length - ret.toNat + q.length ≤ s.ev.ring.entries)

/-- The step hands over no awaitable that is held after its `co_await` has returned; it takes no entry with the
address of a record of the batch of `x` that was not written since it was handed out; every request of the batch
gets an entry if it begins; and its handler does not throw but in its last call. -/
def Served (x : CoroId) (s : State) (c : Choice) : Prop :=
  s.OnTime c ∧ ∀ l ∈ s.batch x,
    (∀ y ∈ s.ev.ring.pending.take (s.taking c), y.among l.reqData = true → y.written = true) ∧
    (s.stack.head? = some (.run x) → (l.pc = .begin → s.Fits (s.coros x).body.requests c) ∧
      (c = .user .throw → l.numQueued = 0 ∧ l.numSubmitted ≤ l.answered))

instance (x : CoroId) (s : State) (c : Choice) : Decidable (s.Served x c) := by
  unfold Served Fits
  infer_instance

/-- The batch begins and each of its requests gets an entry. -/
theorem tally_begin (hreach : Reachable s) {q' : RequestQueue} {l' : BatchLocals} {ret : ℤ} {rest : List Activation}
    (ht : s.Tally x q l) (hv : s.Vector x q l) (hpc : l.pc = .begin) (hst : s.stack = .run x :: rest)
    (hfits : s.Fits q (.sub ret))
    (hs : s.submitAndWaitBegin x q ret = .ok s') (hb : (s'.coros x).body = .submitAndWait q' l')
    (hu : (s'.coros x).place.unfinished = true) : s'.Tally x q' l' := by
  obtain ⟨s1, h1, ⟨-, h2⟩ | ⟨hret, s2, h2, rfl⟩⟩ := submitAndWaitBegin_ok hs
  · rw [place_submit_finish hreach hst h1 h2] at hu
    cases hu
  · rw [setBody_body] at hb
    cases hb
    obtain ⟨hsmall, hroom⟩ := (hfits ret rfl).resolve_left (not_lt.mpr hret)
    obtain ⟨hn1, hring, htrace, hlive1⟩ : s1.nextReq = s.nextReq ∧ s1.ev.ring = s.ev.ring.submit ret.toNat ∧
      s1.trace = s.trace ∧
        s1.shouldRestrictUsage = s.shouldRestrictUsage := by
      obtain ⟨-, -, -, rfl⟩ := submitQueuedEntries_ok h1
      exact ⟨rfl, rfl, rfl, rfl⟩
    have hlen : (List.range' s1.nextReq q.length).length = q.length := List.length_range'
    have hsnd : (q.zip (List.range' s1.nextReq q.length)).map Prod.snd = List.range' s1.nextReq q.length :=
      List.map_snd_zip hlen.le
    have hnodup : (List.range' s1.nextReq q.length).Nodup := List.nodup_range'
    have hlenz : (q.zip (List.range' s1.nextReq q.length)).length = q.length := by rw [List.length_zip, hlen, min_self]
    -- there was no call yet
    have hnone : s.calls x = [] := by
      refine List.eq_nil_iff_forall_not_mem.mpr fun e he => ?_
      obtain ⟨p, r, hm, -⟩ := ht.told e he
      rw [hv.begins hpc] at hm
      simp at hm
    have hcalls : (s2.setBody x (.submitAndWait q ⟨.loop, List.range' s1.nextReq q.length, ret.toNat,
        u32 s2.ev.ring.unpublished⟩)).calls x = [] := by
      rw [← hnone]
      have htr : s2.trace = s.trace := (Eq.trans (trace_processRequests h2) rfl).trans htrace
      exact congrArg (List.filter (Event.isCallOf x)) htr
    obtain ⟨hunp, hdata⟩ : s2.ev.ring.unpublished = (s1.newVector x q.length).2.ev.ring.unpublished +
        (q.zip (List.range' s1.nextReq q.length)).length ∧ ∀ p r, (p, r) ∈ q.zip (List.range' s1.nextReq q.length) →
          (s2.reqs r).data.reqType = p.type ∧ (s2.reqs r).data.specificData = p := by
      rcases hroom with rfl | ⟨hlive, hroom⟩
      · cases h2
        simp
      · have hroom1 : (s1.newVector x q.length).2.ev.ring.pending.length +
          (q.zip (List.range' s1.nextReq q.length)).length ≤
            (s1.newVector x q.length).2.ev.ring.entries := by
          show s1.ev.ring.pending.length + _ ≤ s1.ev.ring.entries
          rw [hring, Uring.submit_pending, List.length_drop, Uring.submit_entries, hlenz]
          exact hroom
        have hlive2 : (s1.newVector x q.length).2.shouldRestrictUsage = false := hlive1.trans hlive
        exact processRequests_all (by rw [hsnd]; exact hnodup) hlive2 hroom1 h2
    have hunp1 : (s1.newVector x q.length).2.ev.ring.unpublished = 0 := by
      show s1.ev.ring.unpublished = 0
      rw [hring, Uring.submit_unpublished]
    refine ⟨fun r hr => ?_, ?_, hdata, fun _ => ⟨hsmall, 0, ?_, by simp [BatchLocals.answered]⟩⟩
    · have hfresh : s1.queuedFor [r] = 0 ∧ s1.takenFor [r] = 0 := by
        refine posted_fresh (fun y hy a ha => ?_) fun a ha => ?_
        · rw [hring] at hy
          rw [hn1]
          exact (hreach.sound.records.entry a ⟨y, Uring.has_submit hy, ha⟩).1
        · obtain rfl : a = r := by simpa using ha
          exact (List.mem_range'_1.mp hr).1
      have h3 := processRequests_queuedFor_le r h2
      rw [hsnd, List.count_eq_one_of_mem hnodup hr] at h3
      have h4 : (s1.newVector x q.length).2.queuedFor [r] = 0 := hfresh.1
      have h5 : s2.takenFor [r] = 0 := (congrArg (List.countP _) (processRequests_ring h2).2.1).trans hfresh.2
      have h6 : s2.queuedFor [r] ≤ 1 := by omega
      unfold share
      rw [hcalls]
      show s2.queuedFor [r] + s2.takenFor [r] + 0 ≤ 1
      omega
    · rw [hcalls]
      simp
    · show u32 s2.ev.ring.unpublished = _
      rw [hunp, hunp1, hlenz]
      simp

theorem calls_stay (hreach : Reachable s) (hs : State.step s c = .ok s') (hb : (s.coros x).body = .submitAndWait q l)
    (hp : (s.coros x).place = .atGeneric → (s'.coros x).place ≠ .running) : s'.calls x = s.calls x := by
  rcases step_calls hreach hs with h | ⟨r, res, d, -, hd⟩
  · exact h
  · exact absurd hd.place (hp (calls_of_delivers hreach hb hd).1)

/-- The tally of a batch that keeps its records. -/
theorem Tally.keep {l' : BatchLocals} (ht : s.Tally x q l) (hreach : Reachable s) (hs : State.step s c = .ok s')
    (hb : (s.coros x).body = .submitAndWait q l) (hv : s.Vector x q l)
    (hclean : ∀ y ∈ s.ev.ring.pending.take (s.taking c), y.among l.reqData = true → y.written = true)
    (hr : l'.reqData = l.reqData) (htold : ∀ e ∈ s'.calls x, ∃ p r, (p, r) ∈ q.zip l.reqData ∧ s'.Told x p r e)
    (hcounts : l'.pc ≠ .begin → q.length < 2 ^ 32 ∧ ∃ n : ℕ, l'.numQueued = u32 ((q.length : ℤ) - n) ∧
      n + l'.answered ≤ (s'.calls x).length + l'.numSubmitted) : s'.Tally x q l' := by
  have hlast := Lasting.step hs
  rw [← hr] at htold
  refine ⟨fun r hm => ?_, htold, fun p r hm => ?_, hcounts⟩
  · rw [hr] at hm
    obtain ⟨hlt, hh⟩ := (hv.mem r).mp hm
    refine (share_step hreach hs hb hlt hh fun y hy ha => ?_).trans (ht.share r hm)
    exact hclean y hy (among_of_mem ha hm)
  · rw [hr] at hm
    obtain ⟨h1, h2⟩ := ht.data p r hm
    have hlt : r < s.nextReq := hv.lt (List.of_mem_zip hm).2
    exact ⟨(hlast.type r hlt).trans h1, (hlast.pack r hlt).trans h2⟩

theorem Tally.keep_calls {l' : BatchLocals} (ht : s.Tally x q l) (hreach : Reachable s) (hs : State.step s c = .ok s')
    (hb : (s.coros x).body = .submitAndWait q l) (hv : s.Vector x q l)
    (hclean : ∀ y ∈ s.ev.ring.pending.take (s.taking c), y.among l.reqData = true → y.written = true)
    (hp : (s.coros x).place = .atGeneric → (s'.coros x).place ≠ .running) (hr : l'.reqData = l.reqData)
    (hcounts : l'.pc ≠ .begin → q.length < 2 ^ 32 ∧ ∃ n : ℕ, l'.numQueued = u32 ((q.length : ℤ) - n) ∧
      n + l'.answered ≤ (s.calls x).length + l'.numSubmitted) : s'.Tally x q l' := by
  have hcalls := calls_stay hreach hs hb hp
  rw [← hcalls] at hcounts
  refine ht.keep hreach hs hb hv hclean hr (fun e he => ?_) hcounts
  rw [hcalls] at he
  obtain ⟨p, r, hm, h1⟩ := ht.told e he
  exact ⟨p, r, hm, h1.mono hs⟩

theorem not_atGeneric (hreach : Reachable s) {rest : List Activation} (hst : s.stack = .run x :: rest) :
    (s.coros x).place ≠ .atGeneric := by
  rw [hreach.placed.place_of_top hst]
  simp

/-- The loop of the batch goes on. -/
theorem Tally.loops {l' : BatchLocals} (ht : s.Tally x q l) (hreach : Reachable s) (hs : State.step s c = .ok s')
    (hb : (s.coros x).body = .submitAndWait q l) (hv : s.Vector x q l)
    (hclean : ∀ y ∈ s.ev.ring.pending.take (s.taking c), y.among l.reqData = true → y.written = true)
    {ret : Option ℤ} {rest : List Activation} (hst : s.stack = .run x :: rest) (hpc : l.pc = .loop)
    (h1 : s.submitAndWaitLoop x q l ret = .ok s') (hb' : (s'.coros x).body = .submitAndWait q l')
    (hu' : (s'.coros x).place.unfinished = true) : s'.Tally x q l' := by
  have hgen := not_atGeneric hreach hst
  obtain ⟨hsmall, n, hq, hn⟩ := ht.counts (by simp [hpc])
  have hans : l.answered = 0 := by simp [BatchLocals.answered, hpc]
  rcases submitAndWaitLoop_ok h1 with ⟨-, -, -, h2⟩ | ⟨-, -, rfl⟩ | ⟨k, s1, -, hsub, -, h2, ⟨-, h3⟩ | ⟨hk, rfl⟩⟩
  · rw [place_finish (hreach.sound.coherent hst (by simp)) hst h2] at hu'
    cases hu'
  · obtain rfl := awaits_body hb'
    refine ht.keep_calls hreach hs hb hv hclean (absurd · hgen) rfl fun _ => ⟨hsmall, n, hq, ?_⟩
    rw [hans] at hn
    exact hn
  · rw [place_submit_finish hreach hst h2 h3] at hu'
    cases hu'
  · rw [setBody_body] at hb'
    cases hb'
    refine ht.keep_calls hreach hs hb hv hclean (absurd · hgen) rfl fun _ => ⟨hsmall, n + k.toNat, ?_, ?_⟩
    · show u32 ((l.numQueued : ℤ) - k) = u32 ((q.length : ℤ) - (n + k.toNat : ℕ))
      rw [hq]
      unfold u32
      omega
    · show n + k.toNat + l.answered ≤ (s.calls x).length + (l.numSubmitted + k.toNat)
      omega

theorem Tally.next {l' : BatchLocals} (ht : s.Tally x q l) (hreach : Reachable s) (hs : State.step s c = .ok s')
    (hb : (s.coros x).body = .submitAndWait q l) (hv : s.Vector x q l)
    (hclean : ∀ y ∈ s.ev.ring.pending.take (s.taking c), y.among l.reqData = true → y.written = true)
    {i : ℕ} {rest : List Activation} (hst : s.stack = .run x :: rest) (hpc : l.pc = .handler i)
    (h1 : s' = s.submitAndWaitNext x q l i) (hb' : (s'.coros x).body = .submitAndWait q l') : s'.Tally x q l' := by
  have hgen := not_atGeneric hreach hst
  obtain ⟨hsmall, n, hq, hn⟩ := ht.counts (by simp [hpc])
  have hans : l.answered = i + 1 := by simp [BatchLocals.answered, hpc]
  subst h1
  unfold State.submitAndWaitNext at hb'
  split at hb'
  · obtain rfl := awaits_body hb'
    refine ht.keep_calls hreach hs hb hv hclean (absurd · hgen) rfl fun _ => ⟨hsmall, n, hq, ?_⟩
    rw [hans] at hn
    exact hn
  · rw [setBody_body] at hb'
    cases hb'
    refine ht.keep_calls hreach hs hb hv hclean (absurd · hgen) rfl fun _ => ⟨hsmall, n, hq, ?_⟩
    show n + 0 ≤ (s.calls x).length + 0
    omega

/-- The batch has a response: the handler is told of the request with the record. -/
theorem Tally.hears (ht : s.Tally x q l) (hreach : Reachable s) (hs : State.step s c = .ok s')
    (hb : (s.coros x).body = .submitAndWait q l) (hv : s.Vector x q l)
    (hclean : ∀ y ∈ s.ev.ring.pending.take (s.taking c), y.among l.reqData = true → y.written = true)
    {i : ℕ} {res : ℤ} {d : ResponsePack} (hpc : l.pc = .await i) (hsrc : s.Source r x res c)
    (hd : s.Delivers r x res d s') :
    s'.Tally x q { l with pc := .handler i } := by
  obtain ⟨hsmall, n, hq, hn⟩ := ht.counts (by simp [hpc])
  have hans : l.answered = i := by simp [BatchLocals.answered, hpc]
  obtain ⟨-, hh, hcalls⟩ := calls_of_delivers hreach hb hd
  refine ht.keep hreach hs hb hv hclean rfl (fun e he => ?_) fun _ => ⟨hsmall, n, hq, ?_⟩
  · rw [hcalls] at he
    rcases List.mem_cons.mp he with rfl | he
    · obtain ⟨j, base, y, rest, hst, rfl, hy, hu1, -⟩ := among_of_delivers hreach hv hb hsrc hd
      obtain ⟨p, hm⟩ : ∃ p, (p, r) ∈ q.zip l.reqData := by
        have hm : r ∈ (q.zip l.reqData).map Prod.snd := by
          rw [List.map_snd_zip (hv.length (by simp [hpc])).le]
          exact (hv.mem r).mpr ⟨hreach.sound.records.lt_nextReq hd.live, hh⟩
        obtain ⟨⟨p, r'⟩, hz, rfl⟩ := List.mem_map.mp hm
        exact ⟨p, hz⟩
      obtain ⟨htype, hpack⟩ := ht.data p r hm
      obtain ⟨iov, hd1⟩ := hd.pack
      rw [htype, hpack] at hd1
      refine ⟨p, r, hm, res, iov, d, by rw [type_of_responsePack hd1], hd1, ?_⟩
      exact completed_of_awaitCqe (by simpa only [State.step, hst] using hs) hy hu1
    · obtain ⟨p, r', hm, h1⟩ := ht.told e he
      exact ⟨p, r', hm, h1.mono hs⟩
  · rw [hcalls, List.length_cons]
    show n + (i + 1) ≤ (s.calls x).length + 1 + l.numSubmitted
    omega

/-- The tally goes on with the batch. -/
theorem Tally.step {l' : BatchLocals} (ht : s.Tally x q l) (hreach : Reachable s) (hserved : s.Served x c)
    (hs : State.step s c = .ok s') (hx : x < s.nextCoro) (hb : (s.coros x).body = .submitAndWait q l)
    (hu : (s.coros x).place.unfinished = true) (hb' : (s'.coros x).body = .submitAndWait q l')
    (hu' : (s'.coros x).place.unfinished = true) : s'.Tally x q l' := by
  have hl : l ∈ s.batch x := mem_batch.mpr ⟨q, hb, hu⟩
  have hv := hreach.vectors x q l hb hu
  have hclean := (hserved.2 l hl).1
  cases step_batch hreach hs hb hx with
  | rests hb1 _ hp =>
    rw [hb1] at hb'
    cases hb'
    refine ht.keep_calls hreach hs hb hv hclean (fun hgen hrun => ?_) rfl ht.counts
    rcases hp with hp | ⟨hp, -⟩
    · rw [hgen, hrun] at hp
      cases hp
    · rw [hgen] at hp
      cases hp
  | leaves _ hgone =>
    rw [hgone] at hu'
    cases hu'
  | begins hst hcs hpc h1 =>
    subst hcs
    have hfits := ((hserved.2 l hl).2 (by rw [hst]; rfl)).1 hpc
    rw [hb] at hfits
    exact tally_begin hreach ht hv hpc hst hfits h1 hb' hu'
  | loops hst _ hpc h1 => exact ht.loops hreach hs hb hv hclean hst hpc h1 hb' hu'
  | next hst _ hpc h1 => exact ht.next hreach hs hb hv hclean hst hpc h1 hb'
  | throws hst _ _ h1 =>
    rw [place_finish (hreach.sound.coherent hst (by simp)) hst h1] at hu'
    cases hu'
  | hears hpc hsrc hd hb1 =>
    rw [hb1] at hb'
    cases hb'
    exact ht.hears hreach hs hb hv hclean hpc hsrc hd

/-! ### What the batch returns -/

/-- A body that ends returns what it ends with, and nothing else returns. -/
theorem returned_of_finish (hc : Coherent s) {h y : CoroId} {rest : List Activation} (hst : s.stack = .run h :: rest)
    {out o : Option ℕ} (hs : s.finish h out = .ok s') (hm : .returned y o ∈ s'.trace) (h0 : .returned y o ∉ s.trace) :
    y = h ∧ o = out := by
  have hmove : TaskStep s.tasks (.finish h out) s'.tasks := tasks_finish hc hst (.inl rfl) hs
  rw [← mem_log rfl] at hm h0
  generalize s'.tasks = m' at hmove hm
  cases hmove with
  | idle hl => simp at hl
  | finish hl _ h1 =>
    obtain ⟨rfl, rfl⟩ : _ ∧ _ := by simpa using hl.resolve_right (by simp)
    cases h1 with
    | mk =>
      rcases List.mem_cons.mp hm with h2 | h2
      · cases h2
        exact ⟨rfl, rfl⟩
      · exact absurd h2 h0
  | finishResume hl _ _ h1 =>
    obtain ⟨rfl, rfl⟩ : _ ∧ _ := by simpa using hl.resolve_right (by simp)
    cases h1 with
    | mk =>
      rcases List.mem_cons.mp ((List.mem_cons.mp hm).resolve_left (by simp)) with h2 | h2
      · cases h2
        exact ⟨rfl, rfl⟩
      · exact absurd h2 h0

theorem u64_ne_zero {n : ℤ} (hn : n < 0) (hlow : -2 ^ 31 ≤ n) : u64 n ≠ 0 := by
  unfold u64
  omega

/-- A batch that returns 0, or that an exception leaves, has had as many calls of its handler as its queue is long. -/
theorem Tally.returns {out : Option ℕ} (ht : s.Tally x q l) (hreach : Reachable s) (hserved : s.Served x c)
    (hs : State.step s c = .ok s') (hb : (s.coros x).body = .submitAndWait q l) (hm : .returned x out ∈ s'.trace)
    (h0 : .returned x out ∉ s.trace) (hout : ∀ y, out = some y → y = 0) : s'.Reported x q := by
  obtain ⟨hrun, hfinal, -⟩ := (step_tasks hreach.sound hreach.killing hs).ended ((mem_log rfl).mpr hm)
    (mt (mem_log rfl).mp h0)
  replace hrun : (s.coros x).place = .running := hrun
  replace hfinal : (s'.coros x).place = .final := hfinal
  have hu : (s.coros x).place.unfinished = true := by rw [hrun]; rfl
  have hv := hreach.vectors x q l hb hu
  have hx : x < s.nextCoro := by
    by_contra hge
    rw [hreach.placed.fresh x (not_lt.mp hge)] at hrun
    cases hrun
  have hsame : s'.trace ≠ s.trace := fun h1 => h0 (h1 ▸ hm)
  -- a submit that fails is reported
  have hfail : ∀ {n : ℤ} {s1 : State} {rest : List Activation}, s.stack = .run x :: rest →
    s.submitQueuedEntries n = .ok s1 →
      n < 0 → s1.finish x (some (u64 n)) = .ok s' → s'.Reported x q := by
    intro n s1 rest hst h1 hneg h2
    have hlow := (submitQueuedEntries_ok h1).2.1
    have htr : s1.trace = s.trace := by
      obtain ⟨-, -, -, rfl⟩ := submitQueuedEntries_ok h1
      rfl
    obtain ⟨-, rfl⟩ := returned_of_finish ((hreach.sound.coherent hst (by simp)).submit h1)
      ((submitQueuedEntries_stack h1).1.trans hst) h2 hm (htr ▸ h0)
    exact absurd (hout _ rfl) (u64_ne_zero hneg hlow)
  -- nothing is left to be counted off, and no response is left to come
  have hall : l.pc ≠ .begin → l.numQueued = 0 → l.numSubmitted ≤ l.answered → s'.Reported x q := by
    intro hpc hqueued hsub
    have hcalls : s'.calls x = s.calls x := calls_stay hreach hs hb fun hgen => by simp [hrun] at hgen
    obtain ⟨hsmall, n, hq, hn⟩ := ht.counts hpc
    have hlen : q.length ≤ (s.calls x).length := by
      rw [hqueued] at hq
      unfold u32 at hq
      omega
    exact (ht.reported hv hpc hlen).mono hs hcalls
  cases step_batch hreach hs hb hx with
  | rests _ _ hp =>
    rw [hrun, hfinal] at hp
    rcases hp with hp | ⟨hp, -⟩ <;> cases hp
  | leaves hne => exact absurd hrun hne
  | begins hst _ _ h1 =>
    obtain ⟨s1, h2, ⟨hneg, h3⟩ | ⟨-, s2, h3, h4⟩⟩ := submitAndWaitBegin_ok h1
    · exact hfail hst h2 hneg h3
    · have htr : s2.trace = s1.trace := Eq.trans (trace_processRequests h3) rfl
      refine absurd ((congrArg State.trace h4).trans (htr.trans ?_)) hsame
      obtain ⟨-, -, -, rfl⟩ := submitQueuedEntries_ok h2
      rfl
  | loops hst _ hpc h1 =>
    rcases submitAndWaitLoop_ok h1 with ⟨-, hsub, hqueued, h2⟩ | ⟨-, -, h2⟩ | ⟨n, s1, -, -, -, h2, ⟨hneg, h3⟩ | ⟨-, h3⟩⟩
    · exact hall (by simp [hpc]) hqueued (hsub.le.trans (Nat.zero_le _))
    · exact absurd (congrArg State.trace h2) hsame
    · exact hfail hst h2 hneg h3
    · refine absurd ((congrArg State.trace h3).trans ?_) hsame
      obtain ⟨-, -, -, rfl⟩ := submitQueuedEntries_ok h2
      rfl
  | @next i _ _ _ _ _ h1 =>
    refine absurd ((congrArg State.trace h1).trans ?_) hsame
    unfold State.submitAndWaitNext
    split <;> rfl
  | throws hst hc hpc =>
    obtain ⟨hqueued, hsub⟩ := ((hserved.2 l (mem_batch.mpr ⟨q, hb, hu⟩)).2 (by rw [hst]; rfl)).2 hc
    exact hall (by simp [hpc]) hqueued hsub
  | hears _ _ hd =>
    rw [(calls_of_delivers hreach hb hd).1] at hrun
    cases hrun

/-- What is known of a batch while it is under way and when it has returned. -/
structure Honest (s : State) (x : CoroId) : Prop where
  fresh : s.nextCoro ≤ x → s.calls x = []
  tally : ∀ q l, (s.coros x).body = .submitAndWait q l → (s.coros x).place.unfinished = true → s.Tally x q l
  returned : ∀ q l out, (s.coros x).body = .submitAndWait q l → .returned x out ∈ s.trace →
    (∀ y, out = some y → y = 0) →
    s.Reported x q

theorem batch_unfinished (hreach : Reachable s) (hs : State.step s c = .ok s') (hx : x < s.nextCoro)
    (hb : (s.coros x).body = .submitAndWait q l) (hu : (s'.coros x).place.unfinished = true) :
    (s.coros x).place.unfinished = true := by
  have hrun : ∀ {rest}, s.stack = .run x :: rest → (s.coros x).place.unfinished = true := by
    intro rest hst
    rw [hreach.placed.place_of_top hst]
    rfl
  cases step_batch hreach hs hb hx with
  | rests _ _ hp =>
    rcases hp with hp | ⟨hp, -⟩
    · rw [← hp, hu]
    · rw [hp]
      rfl
  | leaves _ hgone =>
    rw [hgone] at hu
    cases hu
  | begins hst | loops hst | next hst | throws hst => exact hrun hst
  | hears _ _ hd =>
    rw [(calls_of_delivers hreach hb hd).1]
    rfl

theorem Honest.step (hh : s.Honest x) (hreach : Reachable s) (hserved : s.Served x c) (hs : State.step s c = .ok s') :
    s'.Honest x := by
  have hreach' : Reachable s' := hreach.step hs
  have hsteady := Steady.step hs
  have hborn : ∀ out, .returned x out ∈ s'.trace → x < s.nextCoro := by
    intro out hm
    by_contra hge
    have h0 : Event.returned x out ∉ s.trace := fun h1 => hge (hreach.history.1.fresh x out ((mem_log rfl).mpr h1))
    obtain ⟨hrun, -⟩ := (step_tasks hreach.sound hreach.killing hs).ended ((mem_log rfl).mpr hm)
      (mt (mem_log rfl).mp h0)
    have hgone : (s.coros x).place = .running := hrun
    rw [hreach.placed.fresh x (not_lt.mp hge)] at hgone
    cases hgone
  -- who is not there yet has no handler to be called
  have hnone : s.nextCoro ≤ x → s'.calls x = [] := by
    intro hge
    rw [← hh.fresh hge]
    by_cases hlt : x < s'.nextCoro
    · obtain ⟨a, ctx, b, -, -, rfl⟩ := step_born hreach hs (hge.trans_lt hlt)
      cases ctx <;> rfl
    · rcases step_calls hreach hs with h1 | ⟨r, res, d, -, hd⟩
      · exact h1
      · have hrun := hd.place
        rw [hreach'.placed.fresh x (not_lt.mp hlt)] at hrun
        cases hrun
  refine ⟨fun hge => hnone (hsteady.nextCoro.trans hge), fun q l' hb' hu' => ?_, fun q l' out hb' hm hout => ?_⟩
  · by_cases hx : x < s.nextCoro
    · obtain ⟨l, hb⟩ := batch_body hs hx hb'
      have hu := batch_unfinished hreach hs hx hb hu'
      exact (hh.tally q l hb hu).step hreach hserved hs hx hb hu hb' hu'
    · obtain ⟨-, rfl, -⟩ := batch_born hreach hs hx hb' hu'
      refine ⟨by simp, ?_, by simp, fun hpc => absurd rfl hpc⟩
      rw [hnone (not_lt.mp hx)]
      simp
  · obtain ⟨l, hb⟩ := batch_body hs (hborn out hm) hb'
    by_cases h0 : Event.returned x out ∈ s.trace
    · refine (hh.returned q l out hb h0 hout).mono hs (calls_stay hreach hs hb fun hgen => ?_)
      exact absurd ((mem_log rfl).mpr h0)
        (hreach.history.1.unfinished x out (show (s.coros x).place.unfinished = true by rw [hgen]; rfl))
    · have hu : (s.coros x).place.unfinished = true := by
        obtain ⟨hrun, -⟩ := (step_tasks hreach.sound hreach.killing hs).ended ((mem_log rfl).mpr hm)
          (mt (mem_log rfl).mp h0)
        rw [show (s.coros x).place = .running from hrun]
        rfl
      exact (hh.tally q l hb hu).returns hreach hserved hs hb hm h0 hout

theorem Honest.init (hi : State.Initial s) (x : CoroId) : s.Honest x := by
  have ht : s.trace = [] := by cases hi <;> rfl
  refine ⟨fun _ => by simp [calls, ht], fun q l hb hu => ?_, fun q l out _ hm => by simp [ht] at hm⟩
  rw [hi.place] at hu
  split at hu
  · rename_i hx
    subst hx
    cases hi <;> cases hb
  · cases hu

end State

/-- **A `submit_and_wait` that yields 0 had its handler called once for each request**, with its type and its
response, if all its requests got an entry when it began, no entry with the address of one of its records was taken
that was not written since it was handed out, its handler did not throw but in its last call, and no completion came
for an awaitable that is held after its `co_await` has returned. -/
theorem batch_reports {x a : CoroId} {t : TaskRef} {q : RequestQueue} {s : State} (h : Reach (State.Served x) s)
    (hk : (s.coros x).body.kind = .submitAndWait q) (hm : .taskReturned a t x 0 ∈ s.trace) : s.Reported x q := by
  have hhonest : s.Honest x := by
    refine Reach.inv_of (I := fun s => s.Honest x) (J := fun s => Reachable s) (fun s hs => hs.reachable)
      (fun s hi => .init hi x) ?_ h
    exact fun s c s' hreach hh hserved hs => hh.step hreach hserved hs
  obtain ⟨l, hb⟩ : ∃ l, (s.coros x).body = .submitAndWait q l := by
    cases hb : (s.coros x).body with
    | submitAndWait q' l =>
      rw [hb] at hk
      cases hk
      exact ⟨l, rfl⟩
    | _ =>
      rw [hb] at hk
      cases hk
  rcases h.reachable.yields a t x hm with h0 | h0
  · exact hhonest.returned q l _ hb h0 fun y hy => (Option.some.inj hy).symm
  · exact hhonest.returned q l _ hb h0 (by simp)

/-- A batch of two on a ring of four, answered in the other order. -/
theorem batch_reports_two : ∃ s : State, .taskReturned 1 (.var 1) 2 0 ∈ s.trace ∧
    s.Reported 2 [.write ⟨4, 200, 8⟩, .read ⟨3, 100, 8⟩] := by
  have he : (exec State.step (State.Served 2) (init 4) [.user .call,
      .user (.submitAndWait [.write ⟨4, 200, 8⟩, .read ⟨3, 100, 8⟩]), .user (.startTask 0), .user (.awaitTask 1),
      .sub 0, .sub 2, .tau, .tau, .tau, .tau, .user .start, .message 0, .cqe 1 5 0, .user (.handlerReturn false), .tau,
      .tau, .message 0, .cqe 0 8 0, .user (.handlerReturn false),
      .tau]).map (fun s => decide (.taskReturned 1 (.var 1) 2 0 ∈ s.trace ∧
        (s.coros 2).body.kind = .submitAndWait [.write ⟨4, 200, 8⟩, .read ⟨3, 100, 8⟩])) = some true := by decide
  obtain ⟨s, hreach, hs⟩ := Reach.of_exec (.up 4) he
  obtain ⟨hm, hk⟩ := of_decide_eq_true hs
  exact ⟨s, hm, batch_reports hreach hk hm⟩

/-- On a ring of one, the second request of a batch of two gets no entry, and the batch yields 0 after the first. -/
theorem batch_reports_fails : ¬ ∀ (s : State) (x a : CoroId) (t : TaskRef) (q : RequestQueue), Reachable s →
    (s.coros x).body.kind = .submitAndWait q → .taskReturned a t x 0 ∈ s.trace → s.Reported x q := by
  intro hall
  have he : (exec State.step (fun _ _ => True) (init 1) [.user .call,
      .user (.submitAndWait [.write ⟨4, 200, 8⟩, .read ⟨3, 100, 8⟩]), .user (.startTask 0), .user (.awaitTask 1),
      .sub 0, .sub 1, .tau, .tau, .tau, .tau, .user .start, .message 0, .cqe 0 8 0,
      .user (.handlerReturn false), .tau]).map
      (fun s => decide (.taskReturned 1 (.var 1) 2 0 ∈ s.trace ∧
        (s.coros 2).body.kind = .submitAndWait [.write ⟨4, 200, 8⟩, .read ⟨3, 100, 8⟩] ∧
        (s.calls 2).length = 1)) = some true := by
    decide
  obtain ⟨s, hreach, hs⟩ := Reach.of_exec (.up 1) he
  obtain ⟨hm, hk, hlen⟩ := of_decide_eq_true hs
  obtain ⟨rs, -, -, h2, -⟩ := hall s 2 1 (.var 1) _ hreach hk hm
  rw [hlen] at h2
  cases h2

end EvManager
