import EvManager.Lifetimes
import Mathlib.Logic.Relation

/-!
# The life of an `_na` request

An accepted `_na` request is pending, in flight, parked, served by a coroutine in `poll`, or deleted.  It is
always at exactly one of these stages, each step leaves it there or moves it to the next (**`stage_step`**), and
so does every run (**`na_life`**).
-/

namespace EvManager

open Lib State

/-- Where an accepted `_na` request is. -/
inductive NaStage
  | pending
  | inFlight
  | parked
  | served
  | deleted
  deriving DecidableEq, Repr

/-- Where it goes from there: the kernel takes its entry, its completion is parked where nobody polls, a coroutine
that polls is resumed for it, and the record is deleted when this coroutine gives way. -/
inductive NaStage.Next : NaStage → NaStage → Prop
  | submit : Next .pending .inFlight
  | park : Next .inFlight .parked
  | serve : Next .inFlight .served
  | unpark : Next .parked .served
  | delete : Next .served .deleted

/-- The dispatch of this request. -/
def Activation.isServing (r : ReqId) : Activation → Bool
  | .eventHandler x _ => x == r
  | _ => false

/-- A call of a handler for this request. -/
def Event.isHandledOf (r : ReqId) : Event → Bool
  | .handled _ x _ _ => x == some r
  | _ => false

namespace State

variable {s s' : State} {c : Choice} {r : ReqId}

/-- How often the request is at the stage. -/
def timesAt (s : State) (r : ReqId) : NaStage → ℕ
  | .pending => (s.queue.filterMap Purpose.record).count r
  | .inFlight => (s.flight.filterMap Purpose.record).count r
  | .parked => s.parked.countP (·.1 = r)
  | .served => s.loops.countP (Activation.isServing r)
  | .deleted => s.deletes r

/-- The request is at this stage once, and at no other. -/
def AtStage (s : State) (r : ReqId) (a : NaStage) : Prop := ∀ b, s.timesAt r b = if b = a then 1 else 0

/-! ### At which stage a request is -/

theorem issued_count (s : State) (r : ReqId) : s.issued.count r = s.timesAt r .pending + s.timesAt r .inFlight := by
  rw [issued_append, List.count_append, Nat.add_comm]
  rfl

theorem issued_of_naOp {p : ParameterPack} {ret : ℤ} {e : Errnos} (hs : s.naOp p ret = .ok (e, s'))
    (hn : s.nextReq < s'.nextReq) :
    0 < s'.issued.count s.nextReq := by
  rcases naOp_ok hs with ⟨-, -, rfl⟩ | ⟨-, j, ring, s2, hring, h2, hcase⟩
  · exact absurd hn (lt_irrefl _)
  · have hr : s'.ev.ring = s2.ev.ring := by rcases hcase with ⟨-, -, rfl⟩ | ⟨-, -, rfl⟩ <;> rfl
    have hsame : s'.issued = s2.issued := by rw [issued, issued, flight, queue, hr, flight, queue]
    have hmem : s.nextReq ∈ (s.setRing ring).issued := by
      refine List.mem_filterMap.mpr ⟨some (.request p s.nextReq), List.mem_append_right _ ?_, rfl⟩
      show _ ∈ ring.pending.map Slot.purpose
      rw [(Uring.getSqe_pending hring).1, List.map_append]
      exact List.mem_append_right _ List.mem_cons_self
    obtain ⟨-, hq, hf, -⟩ := queue_submit h2
    have hmoved : s2.issued = (s.setRing ring).issued ++ ([] ++ []).filterMap Purpose.record :=
      issued_moves (n := ret.toNat) (by simpa using hq) (by simpa using hf)
    rw [hsame, hmoved]
    exact List.count_pos_iff.mpr (List.mem_append_left _ hmem)

/-- **An accepted request** is on the heap, and in the ring or completed, once. -/
theorem known_accepted (h : Reach Careful s) : ∀ r, .accepted r ∈ s.trace →
    r < s.nextReq ∧ (s.reqs r).home = .heap ∧ s.known r = 1 := by
  refine h.inv_of (I := fun s => ∀ r, .accepted r ∈ s.trace → r < s.nextReq ∧ (s.reqs r).home = .heap ∧ s.known r = 1)
    (J := fun s => Reach Careful s) (fun s hs => hs) (fun s hi r hm => ?_) fun s c s' h ih hP hs r hm => ?_
  · have ht : s.trace = [] := by cases hi <;> rfl
    rw [ht] at hm
    cases hm
  · have hl := Lasting.step hs
    rcases (Dealt.accepted h.reachable hs r).mp hm with hold | ⟨rfl, hlt, hheap, hlive⟩
    · obtain ⟨hr, hhome, hknown⟩ := ih r hold
      exact ⟨hr.trans_le hl.nextReq, (hl.home r hr).trans hhome, ((known_step h hP hs).1 hr).trans hknown⟩
    · obtain ⟨p, ret, e, -, h1⟩ := made_by_na h.reachable hs le_rfl ⟨hheap, hlive⟩
      have hpos := issued_of_naOp h1 hlt
      have hle := known_le (h.step hP hs) s.nextReq
      rw [if_pos hlt] at hle
      refine ⟨hlt, hheap, ?_⟩
      unfold known at hle ⊢
      omega

theorem served_pos : 0 < s.timesAt r .served ↔ ∃ x, .eventHandler r x ∈ s.loops := by
  refine List.countP_pos_iff.trans ⟨fun ⟨a, ha, hr⟩ => ?_, fun ⟨x, hx⟩ => ⟨_, hx, by simp [Activation.isServing]⟩⟩
  cases a with
  | eventHandler y x =>
    obtain rfl : y = r := by simpa [Activation.isServing] using hr
    exact ⟨x, ha⟩
  | _ => cases hr

theorem served_le_one (h : OneLoop s) : s.timesAt r .served ≤ 1 := by
  have hawait : ∀ a : Activation, a.isAwait = true → a.isServing r = false :=
    fun a ha => by cases a <;> first | rfl | cases ha
  have hstart : Activation.isServing r .start = false := rfl
  rcases h.shape with hl | hl | ⟨a, ha, hl⟩ | ⟨x, y, a, ha, hl⟩ <;> simp only [timesAt, hl]
  · exact Nat.zero_le 1
  · exact Nat.zero_le 1
  · simp [hawait a ha, hstart]
  · have hle : ([.eventHandler x y] : List Activation).countP (Activation.isServing r) ≤ 1 := List.countP_le_length
    simpa [List.countP_cons, hawait a ha, hstart] using hle

theorem deliveries_pos : 0 < s.deliveries.countP (·.1 = r) ↔ ∃ x res d, .resumed r x res d ∈ s.trace := by
  refine List.countP_pos_iff.trans ⟨fun ⟨y, hy, hr⟩ => ?_, fun ⟨x, res, d, hm⟩ => ?_⟩
  · obtain ⟨e, he, hd⟩ := List.mem_filterMap.mp hy
    cases e with
    | resumed z x res d =>
      obtain rfl : (z, res) = y := by simpa [Event.delivery] using hd
      obtain rfl : z = r := by simpa using hr
      exact ⟨x, res, d, he⟩
    | _ => cases hd
  · exact ⟨(r, res), List.mem_filterMap.mpr ⟨_, hm, rfl⟩, by simp⟩

/-- **An accepted request that was delivered** is being served, or its record was deleted. -/
theorem delivered_eq (h : Reach Careful s) (ha : .accepted r ∈ s.trace) :
    s.deliveries.countP (·.1 = r) = s.timesAt r .served + s.timesAt r .deleted := by
  have hreach := h.reachable
  obtain ⟨hlt, hhome, hknown⟩ := known_accepted h r ha
  have hle := places_le_one h r
  have hone := served_le_one (r := r) hreach.oneLoop
  have hheap := hreach.dealt.heap r hlt hhome
  have hdel : s.timesAt r .deleted = if (s.reqs r).live = true then 0 else 1 := hreach.lives.heap r hlt hhome
  by_cases hserved : ∃ x, .eventHandler r x ∈ s.loops
  · -- the record lasts as long as it is served
    have hpos := served_pos.mpr hserved
    have hd : 0 < s.deliveries.countP (·.1 = r) := by
      obtain ⟨x, hx⟩ := hserved
      obtain ⟨res, d, hm⟩ := (hreach.dealt.serving r x hx).logged
      exact deliveries_pos.mpr ⟨x, res, d, hm⟩
    rw [if_pos (hheap.mpr ⟨ha, fun _ _ _ _ => hserved⟩)] at hdel
    unfold places at hle
    omega
  · have h0 : s.timesAt r .served = 0 := Nat.eq_zero_of_not_pos fun hpos => hserved (served_pos.mp hpos)
    by_cases hd : 0 < s.deliveries.countP (·.1 = r)
    · obtain ⟨x, res, d, hm⟩ := deliveries_pos.mp hd
      rw [if_neg fun hl => hserved ((hheap.mp hl).2 x res d hm)] at hdel
      unfold places at hle
      omega
    · rw [if_pos (hheap.mpr ⟨ha, fun x res d hm => absurd (deliveries_pos.mpr ⟨x, res, d, hm⟩) hd⟩)] at hdel
      omega

theorem timesAt_sum (h : Reach Careful s) (ha : .accepted r ∈ s.trace) :
    s.timesAt r .pending + s.timesAt r .inFlight + s.timesAt r .parked + s.timesAt r .served +
    s.timesAt r .deleted = 1 := by
  have hplaces := places_eq h.reachable (r := r)
  rw [(known_accepted h r ha).2.2, places, issued_count, delivered_eq h ha] at hplaces
  have hparked : s.timesAt r .parked = s.parked.countP (·.1 = r) := rfl
  omega

/-- **An accepted request is at one stage**, and at no other. -/
theorem exists_stage (h : Reach Careful s) (ha : .accepted r ∈ s.trace) : ∃ a, s.AtStage r a := by
  have hsum := timesAt_sum h ha
  have hone : ∃ a, s.timesAt r a = 1 := by
    by_contra hno
    have hne : ∀ a, s.timesAt r a ≠ 1 := fun a ha => hno ⟨a, ha⟩
    have h1 := hne .pending
    have h2 := hne .inFlight
    have h3 := hne .parked
    have h4 := hne .served
    have h5 := hne .deleted
    omega
  obtain ⟨a, ha⟩ := hone
  refine ⟨a, fun b => ?_⟩
  cases a <;> cases b <;> simp only [reduceCtorEq, if_true, if_false] <;> omega

/-! ### How it gets from one stage to the next -/

/-- What was accepted earlier is not queued again, and completes from flight only. -/
theorem pending_step (hreach : Reachable s) (hs : State.step s c = .ok s') (hlt : r < s.nextReq) :
    s'.timesAt r .pending ≤ s.timesAt r .pending ∧ s.timesAt r .pending ≤ s'.issued.count r := by
  cases step_issues hreach hs with
  | @moves n a b hq hf hnew =>
    -- what is handed out is for requests that the step makes
    have hnew0 : ((a ++ b).filterMap Purpose.record).count r = 0 :=
      List.count_eq_zero_of_not_mem fun hm => absurd (hnew.sorted.2 r hm).1 (not_le.mpr hlt)
    have hdrop := ((List.drop_sublist n (s.queue ++ a)).filterMap Purpose.record).count_le r
    rw [List.filterMap_append, List.count_append] at hnew0 hdrop
    refine ⟨?_, ?_⟩
    · simp only [timesAt]
      rw [hq, List.filterMap_append, List.count_append]
      omega
    · rw [issued_moves hq hf, List.count_append, issued_count]
      omega
  | reaps _ hq =>
    have hsame : s'.timesAt r .pending = s.timesAt r .pending := by simp only [timesAt, hq]
    rw [issued_count]
    omega

theorem dispatched_step (hs : State.step s c = .ok s') :
    s.completions.countP (·.1 = r) ≤ s'.completions.countP (·.1 = r) ∧
    s.deliveries.countP (·.1 = r) ≤ s'.deliveries.countP (·.1 = r) := by
  cases step_dispatches hs with
  | nothing hu =>
    rw [hu.completions, hu.deliveries]
    exact ⟨le_rfl, le_rfl⟩
  | comes _ _ _ _ hc hd =>
    rw [hc]
    refine ⟨(List.sublist_cons_self _ _).countP_le, ?_⟩
    rcases hd with ⟨hd, -⟩ | ⟨hd, -⟩ <;> rw [hd]
    exact (List.sublist_cons_self _ _).countP_le
  | unparks _ hc hd =>
    rw [hc, hd]
    exact ⟨le_rfl, (List.sublist_cons_self _ _).countP_le⟩

/-- A record is deleted only where the request is served. -/
theorem deleted_step (hreach : Reachable s) (hs : State.step s c = .ok s') (hlt : r < s.nextReq)
    (hhome : (s.reqs r).home = .heap) :
    s.timesAt r .deleted ≤ s'.timesAt r .deleted ∧ s'.timesAt r .deleted ≤
    s.timesAt r .deleted + s.timesAt r .served := by
  rcases heap_step hreach hs hlt hhome with ⟨hd, -⟩ | ⟨hd, hlive, hdead⟩
  · have hd' : s'.timesAt r .deleted = s.timesAt r .deleted := hd
    omega
  · have hd' : s'.timesAt r .deleted = s.timesAt r .deleted + 1 := hd
    have hpos : 0 < s.timesAt r .served := by
      by_contra hno
      have htop : ∀ h rest, s.stack ≠ .eventHandler r h :: rest := fun h rest hst => hno <| served_pos.mpr
        ⟨h, by rw [State.loops, hst, List.filter_cons_of_pos rfl]; exact List.mem_cons_self⟩
      rw [heap_live hreach hs hlt hhome htop, hlive] at hdead
      cases hdead
    omega

theorem stage_next (h : Reach Careful s) (hP : s.Careful c) (hs : State.step s c = .ok s') (ha : .accepted r ∈ s.trace)
    {a b : NaStage} (h1 : s.AtStage r a) (h2 : s'.AtStage r b) : a = b ∨ NaStage.Next a b := by
  have hreach := h.reachable
  have ha' : .accepted r ∈ s'.trace := (Dealt.accepted hreach hs r).mpr (.inl ha)
  have h' := h.step hP hs
  obtain ⟨hlt, hhome, hknown⟩ := known_accepted h r ha
  obtain ⟨-, -, hknown'⟩ := known_accepted h' r ha'
  obtain ⟨hpend, hring⟩ := pending_step (r := r) hreach hs hlt
  obtain ⟨hcomp, hdeliv⟩ := dispatched_step (r := r) hs
  obtain ⟨hdel, hfrom⟩ := deleted_step hreach hs hlt hhome
  rw [known, issued_count] at hknown hknown'
  rw [issued_count] at hring
  rw [delivered_eq h ha, delivered_eq h' ha'] at hdeliv
  rw [h1, h2] at hpend hdel
  rw [h1, h1, h2] at hfrom
  rw [h1, h2, h2] at hring
  rw [h1, h1, h2, h2] at hdeliv
  rw [h1, h1] at hknown
  rw [h2, h2] at hknown'
  refine or_iff_not_imp_left.mpr fun hne => ?_
  -- the stages that do not follow each other contradict one of the counts
  cases a <;> cases b <;> simp only [reduceCtorEq, if_true, if_false]
    at hknown hknown' hpend hring hdeliv hdel hfrom <;>
    first
    | exact absurd rfl hne
    | constructor
    | omega

/-- **A step leaves an accepted request at its stage**, or moves it to the next. -/
theorem stage_step (h : Reach Careful s) (hP : s.Careful c) (hs : State.step s c = .ok s') (ha : .accepted r ∈ s.trace)
    {a : NaStage} (h1 : s.AtStage r a) : s'.AtStage r a ∨ ∃ b, s'.AtStage r b ∧ NaStage.Next a b := by
  obtain ⟨b, hb⟩ := exists_stage (h.step hP hs) ((Dealt.accepted h.reachable hs r).mpr (.inl ha))
  rcases stage_next h hP hs ha h1 hb with rfl | hnext
  · exact .inl hb
  · exact .inr ⟨b, hb, hnext⟩

/-- Each delivery of a request on the heap is a call of a handler of `poll`. -/
theorem Explained.handled {es : List Event} (h : Explained s es) (hhome : (s.reqs r).home = .heap) :
    es.countP (Event.isHandledOf r) = (es.filterMap Event.delivery).countP (·.1 = r) := by
  induction h with
  | nil => rfl
  | task _ ih | refused _ _ _ ih | failed _ _ _ _ ih =>
    simpa [List.filterMap_cons, Event.isHandledOf, Event.delivery] using ih
  | @awaitable es y x res d _ _ hh ih | @batch es y x res d _ _ hh ih =>
    have hne : x ≠ r := by
      rintro rfl
      cases hh.symm.trans hhome
    simpa [List.filterMap_cons, Event.isHandledOf, Event.delivery, hne] using ih
  | @poll es y x res d _ _ _ _ _ ih =>
    by_cases hx : x = r <;> simpa [List.filterMap_cons, Event.isHandledOf, Event.delivery, hx] using ih

end State

/-- **The life of an `_na` request.**  In every run in which the kernel takes written entries only and the entries
that the user fills complete with null `user_data`, an accepted request is always at exactly one stage: pending, in
flight, parked, served by one coroutine, or deleted.  A step leaves it there or moves it to the next stage, so from
one state of a run to a later one it goes by `NaStage.Next`; and a handler of `poll` has been called for it once
when it is served or deleted, and not before. -/
theorem na_life {s₁ s : State} (h₁ : Reach State.Careful s₁) (h : Run State.step State.Careful s₁ s) {r : ReqId}
    (ha : .accepted r ∈ s₁.trace) : ∃ a b, s₁.AtStage r a ∧ s.AtStage r b ∧ Relation.ReflTransGen NaStage.Next a b ∧
      s.heard.countP (Event.isHandledOf r) = (if b = .served ∨ b = .deleted then 1 else 0) ∧
      ∀ c s', s.Careful c → State.step s c = .ok s' → s'.AtStage r b ∨ ∃ b', s'.AtStage r b' ∧ NaStage.Next b b' := by
  obtain ⟨a, hat⟩ := State.exists_stage h₁ ha
  have hrun : Reach State.Careful s ∧ .accepted r ∈ s.trace ∧ ∃ b, s.AtStage r b ∧
      Relation.ReflTransGen NaStage.Next a b := by
    induction h with
    | refl => exact ⟨h₁, ha, a, hat, .refl⟩
    | tail _ hP hs ih =>
      obtain ⟨hreach, hacc, b, hb, hab⟩ := ih
      refine ⟨hreach.step hP hs, (State.Dealt.accepted hreach.reachable hs r).mpr (.inl hacc), ?_⟩
      rcases State.stage_step hreach hP hs hacc hb with hb' | ⟨b', hb', hnext⟩
      · exact ⟨b, hb', hab⟩
      · exact ⟨b', hb', hab.tail hnext⟩
  obtain ⟨hreach, hacc, b, hb, hab⟩ := hrun
  refine ⟨a, b, hat, hb, hab, ?_, fun c s' hP hs => State.stage_step hreach hP hs hacc hb⟩
  have hhome := (State.known_accepted hreach r hacc).2.1
  rw [(State.explained hreach.reachable).handled hhome, ← State.deliveries_eq_heard,
    State.delivered_eq hreach hacc, hb, hb]
  cases b <;> rfl

/-- An accepted read is in flight; it completes, is parked, and a coroutine that polls is served: its handler
returns, and the record is deleted. -/
theorem na_life_polled : ∃ s₁ s : State, s₁.AtStage 0 .inFlight ∧ s.AtStage 0 .deleted ∧
    Relation.ReflTransGen NaStage.Next .inFlight .deleted ∧ s.heard.countP (Event.isHandledOf 0) = 1 := by
  have he : ((exec State.step State.Careful (init 4) [.user (.na (.read ⟨3, 100, 8⟩) 1)]).bind fun s₁ =>
      (exec State.step State.Careful s₁
        [.user .poll, .user (.startTask 0), .tau, .tau, .user .start, .message 0, .cqe 0 4 0, .tau,
        .message 0, .user (.handlerReturn true), .tau, .tau]).map fun s =>
        decide (.accepted 0 ∈ s₁.trace ∧ s₁.timesAt 0 .inFlight = 1 ∧ s.timesAt 0 .deleted = 1)) = some true := by
          decide
  obtain ⟨s₁, h1, he⟩ := Option.bind_eq_some_iff.mp he
  obtain ⟨s, hr, hs⟩ := Run.exists_of_exec he
  obtain ⟨hacc, hin, hdel⟩ := of_decide_eq_true hs
  obtain ⟨a, b, ha, hb, hab, hheard, -⟩ := na_life ⟨init 4, .up 4, Run.of_exec h1⟩ hr hacc
  rw [ha] at hin
  rw [hb] at hdel
  obtain rfl : a = .inFlight := by cases a <;> first | rfl | cases hin
  obtain rfl : b = .deleted := by cases b <;> first | rfl | cases hdel
  exact ⟨s₁, s, ha, hb, hab, hheard⟩

end EvManager
