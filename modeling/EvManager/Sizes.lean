import EvManager.KillInternal
import EvManager.Responses

/-!
# Sizes

The length of a transfer and the count of its vectors are given as `size_t`, and an entry of the ring has 32 bits
for them. **`sizes_kept`**: whichever way a transfer is issued, the size that gets into its entry is the one that
was given exactly when that is below `2 ^ 32`.
-/

namespace EvManager

open Lib State ErrorProcessing

/-- The length or the count of vectors given for a transfer. -/
def ParameterPack.size : ParameterPack → Option ℕ
  | .read p => some p.length
  | .write p => some p.length
  | .readv p => some p.num
  | .writev p => some p.num
  | _ => none

/-- What may be put in an entry for the size `n`: the size itself, or an amount that fits, is not the rest of `n` modulo
`2 ^ 32`, and is zero only if `n` is. -/
def SizeKept (n len : ℕ) : Prop := len = n ∨ len < 2 ^ 32 ∧ len ≠ n % 2 ^ 32 ∧ (n ≠ 0 → len ≠ 0)

theorem sizeKept_mod_iff {n : ℕ} : SizeKept n (n % 2 ^ 32) ↔ n < 2 ^ 32 := by
  constructor
  · rintro (h | ⟨-, h, -⟩)
    · rw [← h]
      exact Nat.mod_lt _ (Nat.two_pow_pos _)
    · exact absurd rfl h
  · exact fun h => .inl (Nat.mod_eq_of_lt h)

theorem u32_natCast (n : ℕ) : u32 n = n % 2 ^ 32 := by
  unfold u32
  omega

/-- The entry of a transfer has the rest of its size. -/
theorem len_prepareSqringOp {p : ParameterPack} {n : ℕ} (hp : p.size = some n) (sqe : Sqe) :
    (prepareSqringOp p sqe).len = n % 2 ^ 32 := by
  rw [← u32_natCast]
  cases p <;> cases hp <;> rfl

namespace State

variable {s s' : State} {r : ReqId} {n : ℕ}

/-- The sizes put in entries with the address of `r`. -/
def sizes (r : ReqId) (s : State) : Set ℕ := {len | ∃ x, s.ev.ring.Has x ∧ x.sqe.userData = some r ∧ x.sqe.len = len}

/-- What was put in entries for the request `r` of size `n` is as it should be. -/
def KeepsSize (r : ReqId) (n : ℕ) (s : State) : Prop := ∀ len ∈ s.sizes r, SizeKept n len

theorem keepsSize_of_not (h : ¬ s.HasEntry r) : s.KeepsSize r n := by
  rintro len ⟨x, hx, hu, -⟩
  exact absurd ⟨x, hx, hu⟩ h

/-- The ring got the entry `x`, and no other with the address of `r`. -/
theorem keepsSize_iff (hold : ¬ s.HasEntry r) {x : Slot} (hx : s'.ev.ring.Has x) (hu : x.sqe.userData = some r)
    (hlen : x.sqe.len = n % 2 ^ 32) (hall : ∀ y, s'.ev.ring.Has y → y.sqe.userData = some r → s.HasEntry r ∨ y = x) :
    s'.KeepsSize r n ↔ n < 2 ^ 32 := by
  rw [← sizeKept_mod_iff]
  constructor
  · exact fun h => h _ ⟨x, hx, hu, hlen⟩
  · rintro h len ⟨y, hy, hyu, rfl⟩
    obtain rfl := (hall y hy hyu).resolve_left hold
    rwa [hlen]

/-! ### Awaited requests -/

theorem hasEntry_getUringSqe {p : Purpose} {j : Option ℕ} (hs : s.getUringSqe p = .ok (j, s')) (h : s'.HasEntry r) :
    s.HasEntry r := by
  rcases getUringSqe_ok hs with ⟨-, -, rfl⟩ | ⟨j, ring, -, -, -, hr, rfl⟩
  · exact h
  · obtain ⟨x, hx, hu⟩ := h
    rcases Uring.has_getSqe hr hx with hx | rfl
    · exact ⟨x, hx, hu⟩
    · exact ⟨s.ev.ring.sqes j, .inl ⟨j, rfl⟩, hu⟩

theorem keepsSize_awaitIo {h : CoroId} {p : ParameterPack} (hp : p.size = some n)
    (hd : (s.reqs r).data.specificData = p) (hold : ¬ s.HasEntry r) (hs : s.awaitIo h r = .ok s') :
    s'.KeepsSize r n ↔ isThereAnError (s.reqs r).error = true ∨ n < 2 ^ 32 := by
  obtain ⟨-, ⟨he, rfl⟩ | ⟨j, he, -, -, rfl⟩⟩ := awaitIo_ok hs
  · exact iff_of_true (keepsSize_of_not hold) (.inl he)
  · rw [he, hd]
    refine (keepsSize_iff (x := ((s.ev.ring.sqes j).prep (prepareSqringOp p)).setData (some r)) hold ?_ rfl
      (len_prepareSqringOp hp _) fun y hy hyu => ?_).trans (by simp)
    · exact .inl ⟨j, Function.update_self ..⟩
    · have hy' : (s.ev.ring.write j fun x => (x.prep (prepareSqringOp p)).setData (some r)).Has y := hy
      exact (Uring.has_write hy').imp_left fun hy => ⟨y, hy, hyu⟩

/-- What user code does it does in a coroutine of its own, or on behalf of a coroutine or of none. -/
theorem step_user {a : Act} (hthrow : a ≠ .throw) (hret : ∀ stop, a ≠ .handlerReturn stop)
    (hs : State.step s (.user a) = .ok s') : (∃ ctx, s.userStep ctx a = .ok s') ∨ ∃ h, s.coroStep h a = .ok s' := by
  cases hst : s.stack with
  | nil => simp [State.step, hst] at hs
  | cons top rest =>
    cases top with
    | main => exact .inl ⟨none, by simpa only [State.step, hst] using hs⟩
    | run h =>
      rw [step_run hst] at hs
      unfold State.bodyStep at hs
      cases hb : (s.coros h).body with
      | user =>
        rw [hb] at hs
        exact .inr ⟨h, hs⟩
      | killInternal pc => simp [hb] at hs
      | kill out => cases out <;> simp [hb] at hs
      | submitAndWait q l =>
        simp only [hb] at hs
        generalize l.pc = pc at hs
        cases pc with
        | handler i =>
          cases a with
          | throw => exact absurd rfl hthrow
          | handlerReturn stop => exact absurd rfl (hret stop)
          | _ => exact .inl ⟨none, hs⟩
        | _ => cases hs
      | poll pc =>
        simp only [hb] at hs
        cases pc with
        | handler =>
          cases a with
          | throw => exact absurd rfl hthrow
          | handlerReturn stop => exact absurd rfl (hret stop)
          | _ => exact .inl ⟨none, hs⟩
        | _ => cases hs
    | _ => simp [State.step, hst] at hs

theorem ioOp_request {ctx : Option CoroId} {p : ParameterPack} (hs : s.ioOp ctx p = .ok (r, s')) :
    r = s.nextReq ∧ s'.nextReq = r + 1 ∧ (∃ sqe, s'.reqs r = .awaitable ctx p sqe ∧ (sqe = none ↔ ¬ s.SqeAvailable)) ∧
      ∀ x, s'.HasEntry x → s.HasEntry x := by
  obtain ⟨-, hr, sqe, u, hu, rfl⟩ := ioOp_ok hs
  have hn : u.nextReq = r := by
    rw [hr]
    rcases getUringSqe_ok hu with ⟨-, -, rfl⟩ | ⟨j, ring, -, -, -, -, rfl⟩ <;> rfl
  have hsqe : sqe = none ↔ ¬ s.SqeAvailable := by
    rcases getUringSqe_ok hu with ⟨rfl, hno, -⟩ | ⟨j, ring, rfl, hav, -⟩
    · exact iff_of_true rfl hno
    · exact iff_of_false (by simp) (not_not.mpr hav)
  refine ⟨hr, ?_, ⟨sqe, ?_, hsqe⟩, fun x hx => hasEntry_getUringSqe hu ?_⟩
  · cases ctx <;> simp [newReq, ownReq, modCoro, hn]
  · cases ctx <;> simp [newReq, ownReq, modCoro, hn]
  · cases ctx <;> exact hx

theorem not_hasEntry (hreach : Reachable s) (hr : s.nextReq ≤ r) : ¬ s.HasEntry r := fun he =>
  not_lt.mpr hr (hreach.sound.records.entry r he).1

theorem keepsSize_awaitOp {p : ParameterPack} (hp : p.size = some n) (hreach : Reachable s)
    (hs : State.step s (.user (.awaitOp p)) = .ok s') : s'.KeepsSize s.nextReq n ↔ ¬ s.SqeAvailable ∨ n < 2 ^ 32 := by
  rcases step_user (by simp) (by simp) hs with ⟨ctx, hs⟩ | ⟨h, hs⟩
  · cases hs
  · obtain ⟨⟨r, s1⟩, h1, h2⟩ := bind_ok.mp hs
    obtain ⟨rfl, -, ⟨sqe, hreq, hsqe⟩, hentry⟩ := ioOp_request h1
    rw [keepsSize_awaitIo hp (by rw [hreq]; rfl) (fun he => not_hasEntry hreach le_rfl (hentry _ he)) h2]
    refine or_congr ?_ Iff.rfl
    rw [hreq, ← hsqe]
    cases sqe <;> simp [Request.awaitable, isThereAnError]

theorem keepsSize_io {p : ParameterPack} (hp : p.size = some n) {s1 s2 : State} (hreach : Reachable s)
    (hio : State.step s (.user (.io p)) = .ok s1) (hrun : Run State.step (fun _ _ => True) s1 s2)
    (hs : State.step s2 (.user (.awaitIo s.nextReq)) = .ok s') :
    s'.KeepsSize s.nextReq n ↔ isThereAnError (s2.reqs s.nextReq).error = true ∨ n < 2 ^ 32 := by
  have hop : ∃ ctx r, s.ioOp ctx p = .ok (r, s1) := by
    rcases step_user (by simp) (by simp) hio with ⟨ctx, h1⟩ | ⟨h, h1⟩
    · simp only [userStep, Except.map] at h1
      split at h1 <;> cases h1
      rename_i x hx
      exact ⟨ctx, x.1, hx⟩
    · simp only [coroStep, userStep, Except.map] at h1
      split at h1 <;> cases h1
      rename_i x hx
      exact ⟨some h, x.1, hx⟩
  obtain ⟨ctx, r, hop⟩ := hop
  obtain ⟨rfl, hn, ⟨sqe, hreq, -⟩, -⟩ := ioOp_request hop
  have hreach2 : Reachable s2 := by
    obtain ⟨s₀, hi, hr⟩ := hreach.step hio
    exact ⟨s₀, hi, hr.trans hrun⟩
  have hd : (s2.reqs s.nextReq).data.specificData = p := by
    rw [(Lasting.run hrun).pack _ (by omega), hreq]
    rfl
  rcases step_user (by simp) (by simp) hs with ⟨ctx, h1⟩ | ⟨h, h1⟩
  · cases h1
  · obtain ⟨⟨-, -, hhome, hhandle⟩, -⟩ := awaitIo_ok h1
    refine keepsSize_awaitIo hp hd (fun he => ?_) h1
    rcases (hreach2.sound.records.entry _ he).2 with h2 | h2
    · rw [hhome] at h2
      cases h2
    · exact h2 hhandle

/-! ### Requests that are not awaited -/

theorem hasEntry_submit {ret : ℤ} (hs : s.submitQueuedEntries ret = .ok s') {x : Slot} :
    s'.ev.ring.Has x ↔ s.ev.ring.Has x := by
  obtain ⟨-, -, -, rfl⟩ := submitQueuedEntries_ok hs
  exact ⟨Uring.has_submit, Or.imp_right (List.mem_append_left _)⟩

theorem keepsSize_na {p : ParameterPack} (hp : p.size = some n) (hreach : Reachable s) {ret : ℤ}
    (hs : State.step s (.user (.na p ret)) = .ok s') : s'.KeepsSize s.nextReq n ↔ ¬ s.SqeAvailable ∨ n < 2 ^ 32 := by
  have hna : ∃ e, s.naOp p ret = .ok (e, s') := by
    rcases step_user (by simp) (by simp) hs with ⟨ctx, h1⟩ | ⟨h, h1⟩
    all_goals
      simp only [coroStep, userStep, Except.map] at h1
      split at h1 <;> cases h1
      rename_i x hx
      exact ⟨x.1, hx⟩
  obtain ⟨e, hna⟩ := hna
  have hold : ¬ s.HasEntry s.nextReq := not_hasEntry hreach le_rfl
  rcases naOp_ok hna with ⟨hno, -, rfl⟩ | ⟨hav, j, ring, s2, hr, h2, hcase⟩
  · exact iff_of_true (keepsSize_of_not hold) (.inl hno)
  · have hring : s'.ev.ring = s2.ev.ring := by rcases hcase with ⟨-, -, rfl⟩ | ⟨-, -, rfl⟩ <;> rfl
    have hhas : ∀ x, s'.ev.ring.Has x ↔ ring.Has x := fun x => by
      rw [hring]
      exact hasEntry_submit h2
    refine (keepsSize_iff (x := naSlot p s.nextReq (s.ev.ring.sqes j)) hold ?_ rfl ?_ fun y hy hyu => ?_).trans ?_
    · rw [hhas]
      exact .inl ⟨j, by rw [Uring.getSqe_sqes hr, Function.update_self]⟩
    · exact (congrArg Sqe.len (congrFun (prepNa_eq p) _)).trans (len_prepareSqringOp hp _)
    · rw [hhas] at hy
      exact (Uring.has_getSqe hr hy).imp_left fun hy => ⟨y, hy, hyu⟩
    · simp [hav]

/-! ### Batches -/

theorem has_processRequests {h : CoroId} {l : List (ParameterPack × ReqId)} : ∀ {s s' : State},
    s.processRequests h l = .ok s' → (∀ x, s'.ev.ring.Has x → s.ev.ring.Has x ∨ ∃ y ∈ l, x.sqe.userData = some y.2) ∧
      ∀ x ∈ s.ev.ring.pending, x ∈ s'.ev.ring.pending := by
  induction l with
  | nil =>
    intro s s' hs
    cases hs
    exact ⟨fun _ => .inl, fun _ => id⟩
  | cons y l ih =>
    intro s s' hs
    obtain ⟨req, r⟩ := y
    obtain ⟨⟨b, s1⟩, h1, h2⟩ := bind_ok.mp hs
    obtain ⟨hhas, hpend⟩ := ih h2
    rcases processSingleGenericRequest_ok h1 with ⟨-, -, rfl⟩ | ⟨-, -, -, j, ring, hr, rfl⟩
    · refine ⟨fun x hx => (hhas x hx).imp_right ?_, hpend⟩
      rintro ⟨y, hy, hu⟩
      exact ⟨y, List.mem_cons_of_mem _ hy, hu⟩
    · refine ⟨fun x hx => ?_, fun x hx => hpend x ?_⟩
      · rcases hhas x hx with hx | ⟨y, hy, hu⟩
        · refine (Uring.has_getSqe hr hx).imp_right ?_
          rintro rfl
          exact ⟨(req, r), List.mem_cons_self, rfl⟩
        · exact .inr ⟨y, List.mem_cons_of_mem _ hy, hu⟩
      · show x ∈ ring.pending
        rw [(Uring.getSqe_pending hr).1]
        exact List.mem_append_left _ hx

/-- A request of a queue gets an entry where there is room for those before it and for itself. -/
theorem keepsSize_processRequests {h : CoroId} {l : List (ParameterPack × ReqId)} : ∀ {s s' : State},
    s.processRequests h l = .ok s' → (l.map Prod.snd).Nodup → (∀ y ∈ l, ¬ s.HasEntry y.2) →
    ∀ (i : ℕ) (p : ParameterPack) (r : ReqId), l[i]? = some (p, r) → p.size = some n →
      (s'.KeepsSize r n ↔ (s.shouldRestrictUsage = true ∨ s.ev.ring.entries ≤ s.ev.ring.pending.length + i) ∨
        n < 2 ^ 32) := by
  induction l with
  | nil =>
    intro s s' _ _ _ i p r hi
    cases hi
  | cons y l ih =>
    intro s s' hs hnodup hold i p r hi hp
    obtain ⟨req, x⟩ := y
    obtain ⟨⟨b, s1⟩, h1, h2⟩ := bind_ok.mp hs
    obtain ⟨hnot, hnodup'⟩ := List.nodup_cons.mp hnodup
    obtain ⟨hhas, hpend⟩ := has_processRequests h2
    have hne : ∀ y ∈ l, y.2 ≠ x := fun y hy heq => hnot (List.mem_map.mpr ⟨y, hy, heq⟩)
    have hx : ¬ s.HasEntry x := hold (req, x) List.mem_cons_self
    -- what becomes of the first request does not depend on the others
    have hfirst : ∀ y, s'.ev.ring.Has y → y.sqe.userData = some x → s1.ev.ring.Has y := by
      intro y hy hu
      refine (hhas y hy).resolve_right ?_
      rintro ⟨z, hz, huz⟩
      exact hne z hz (Option.some.inj (huz.symm.trans hu))
    rcases processSingleGenericRequest_ok h1 with ⟨-, hno, rfl⟩ | ⟨-, hav, -, j, ring, hr, rfl⟩
    · have hfull : s1.shouldRestrictUsage = true ∨ s1.ev.ring.entries ≤ s1.ev.ring.pending.length := by
        by_contra hc
        push Not at hc
        exact hno ⟨by simpa using hc.1, hc.2⟩
      have hfull' : ∀ k, s1.shouldRestrictUsage = true ∨ s1.ev.ring.entries ≤ s1.ev.ring.pending.length + k := fun k =>
        hfull.imp_right fun h3 => h3.trans (Nat.le_add_right ..)
      cases i with
      | zero =>
        obtain ⟨rfl, rfl⟩ : req = p ∧ x = r := by simpa using hi
        refine iff_of_true (keepsSize_of_not ?_) (.inl (hfull' 0))
        rintro ⟨y, hy, hu⟩
        exact hx ⟨y, hfirst y hy hu, hu⟩
      | succ i =>
        rw [ih h2 hnodup' (fun y hy => hold y (List.mem_cons_of_mem _ hy)) i p r hi hp]
        exact or_congr (iff_of_true (hfull' i) (hfull' (i + 1))) Iff.rfl
    · cases i with
      | zero =>
        obtain ⟨rfl, rfl⟩ : req = p ∧ x = r := by simpa using hi
        have hnew : ring.pending = s.ev.ring.pending ++ [queuedSlot req x (s.ev.ring.sqes j)] :=
          (Uring.getSqe_pending hr).1
        refine (keepsSize_iff (x := queuedSlot req x (s.ev.ring.sqes j)) hx ?_ rfl ?_ fun y hy hu => ?_).trans ?_
        · refine Uring.has_of_mem_pending (hpend _ ?_)
          show _ ∈ ring.pending
          rw [hnew]
          exact List.mem_append_right _ List.mem_cons_self
        · exact (congrArg Sqe.len (congrFun (prepGenericRequest_eq req) _)).trans (len_prepareSqringOp hp _)
        · exact (Uring.has_getSqe hr (hfirst y hy hu)).imp_left fun hy => ⟨y, hy, hu⟩
        · obtain ⟨hres, hroom⟩ := hav
          refine ⟨.inr, fun h3 => h3.resolve_left ?_⟩
          rintro (h3 | h3)
          · rw [hres] at h3
            cases h3
          · exact not_le.mpr hroom h3
      | succ i =>
        have hold' : ∀ y ∈ l, ¬ HasEntry
            ((s.setRing ring).modReq x fun q => { q with data := q.data.queue h req }) y.2 := by
          rintro y hy ⟨z, hz, hu⟩
          rcases Uring.has_getSqe hr hz with hz | rfl
          · exact hold y (List.mem_cons_of_mem _ hy) ⟨z, hz, hu⟩
          · exact hne y hy (Option.some.inj hu).symm
        rw [ih h2 hnodup' hold' i p r hi hp]
        have hlen : ring.pending.length = s.ev.ring.pending.length + 1 := by
          rw [(Uring.getSqe_pending hr).1, List.length_append, List.length_singleton]
        show (s.shouldRestrictUsage = true ∨ ring.entries ≤ ring.pending.length + i) ∨ n < 2 ^ 32 ↔ _
        rw [Uring.getSqe_entries hr, hlen, Nat.add_right_comm, Nat.add_assoc]

theorem step_batchBegin {h : CoroId} {rest : List Activation} {q : RequestQueue} {l : BatchLocals} {ret : ℤ}
    (hst : s.stack = .run h :: rest) (hb : (s.coros h).body = .submitAndWait q l) (hpc : l.pc = .begin)
    (hs : State.step s (.sub ret) = .ok s') : s.submitAndWaitBegin h q ret = .ok s' := by
  rw [step_run hst] at hs
  simpa only [State.bodyStep, hb, hpc] using hs

theorem keepsSize_batch {p : ParameterPack} (hp : p.size = some n) (hreach : Reachable s) {h : CoroId}
    {rest : List Activation} {q : RequestQueue} {l : BatchLocals} {ret : ℤ} {i : ℕ} (hst : s.stack = .run h :: rest)
    (hb : (s.coros h).body = .submitAndWait q l) (hpc : l.pc = .begin) (hi : q[i]? = some p)
    (hs : State.step s (.sub ret) = .ok s') : s'.KeepsSize (s.nextReq + i) n ↔
      (ret < 0 ∨ s.shouldRestrictUsage = true ∨ s.ev.ring.entries ≤ s.ev.ring.pending.length - ret.toNat + i) ∨
        n < 2 ^ 32 := by
  have hold : ∀ k, ¬ s.HasEntry (s.nextReq + k) := fun k => not_hasEntry hreach (Nat.le_add_right ..)
  have hs := step_batchBegin hst hb hpc hs
  unfold State.submitAndWaitBegin at hs
  obtain ⟨s1, h1, h2⟩ := bind_ok.mp hs
  have hhas : ∀ x, s1.ev.ring.Has x ↔ s.ev.ring.Has x := fun x => hasEntry_submit h1
  obtain ⟨-, -, -, rfl⟩ := submitQueuedEntries_ok h1
  split at h2
  · rename_i hneg
    refine iff_of_true (keepsSize_of_not ?_) (.inl (.inl hneg))
    rintro ⟨x, hx, hu⟩
    rw [(Quiet.finish (by exact hst) h2).ring] at hx
    exact hold i ⟨x, (hhas x).mp hx, hu⟩
  · rename_i hneg
    obtain ⟨s2, h3, h4⟩ := bind_ok.mp h2
    cases h4
    have hmap : (q.zip (List.range' s.nextReq q.length)).map Prod.snd = List.range' s.nextReq q.length :=
      List.map_snd_zip (by simp)
    have hnodup : ((q.zip (List.range' s.nextReq q.length)).map Prod.snd).Nodup := by
      rw [hmap]
      exact List.nodup_range'
    have hlt : i < q.length := (List.getElem?_eq_some_iff.mp hi).1
    have hmem : (q.zip (List.range' s.nextReq q.length))[i]? = some (p, s.nextReq + i) := by
      rw [List.getElem?_zip_eq_some]
      exact ⟨hi, by simp [hlt]⟩
    have hkeep := keepsSize_processRequests (n := n) h3 hnodup (fun y hy => ?_) i p _ hmem hp
    · refine hkeep.trans (or_congr ?_ Iff.rfl)
      have hlen : (s.ev.ring.submit ret.toNat).pending.length = s.ev.ring.pending.length - ret.toNat := by
        rw [Uring.submit_pending, List.length_drop]
      show _ ∨ (s.ev.ring.submit ret.toNat).entries ≤ (s.ev.ring.submit ret.toNat).pending.length + i ↔ _
      rw [hlen, or_iff_right hneg]
      rfl
    · have hm : y.2 ∈ List.range' s.nextReq q.length := hmap ▸ List.mem_map_of_mem hy
      obtain ⟨k, hk⟩ := Nat.exists_eq_add_of_le (List.mem_range'_1.mp hm).1
      rintro ⟨x, hx, hu⟩
      exact hold k ⟨x, (hhas x).mp hx, hk ▸ hu⟩

end State

/-- **A size is kept exactly when it is below `2 ^ 32`**, or no entry is to be had, in each way of issuing a
transfer: made and awaited at once, made and awaited later, not awaited, and as the `i`-th request of a batch. -/
theorem sizes_kept {p : ParameterPack} {n : ℕ} (hp : p.size = some n) :
    (∀ s s', Reachable s → State.step s (.user (.awaitOp p)) = .ok s' →
      (s'.KeepsSize s.nextReq n ↔ ¬ s.SqeAvailable ∨ n < 2 ^ 32)) ∧
    (∀ s s1 s2 s', Reachable s → State.step s (.user (.io p)) = .ok s1 → Run State.step (fun _ _ => True) s1 s2 →
      State.step s2 (.user (.awaitIo s.nextReq)) = .ok s' →
      (s'.KeepsSize s.nextReq n ↔ isThereAnError (s2.reqs s.nextReq).error = true ∨ n < 2 ^ 32)) ∧
    (∀ s s' ret, Reachable s → State.step s (.user (.na p ret)) = .ok s' →
      (s'.KeepsSize s.nextReq n ↔ ¬ s.SqeAvailable ∨ n < 2 ^ 32)) ∧
    (∀ s s' h rest q l ret i, Reachable s → s.stack = .run h :: rest → (s.coros h).body = .submitAndWait q l →
      l.pc = .begin → q[i]? = some p → State.step s (.sub ret) = .ok s' →
      (s'.KeepsSize (s.nextReq + i) n ↔ (ret < 0 ∨ s.shouldRestrictUsage = true ∨
        s.ev.ring.entries ≤ s.ev.ring.pending.length - ret.toNat + i) ∨ n < 2 ^ 32)) :=
  ⟨fun _ _ hreach hs => keepsSize_awaitOp hp hreach hs,
    fun _ _ _ _ hreach hio hrun hs => keepsSize_io hp hreach hio hrun hs,
    fun _ _ _ hreach hs => keepsSize_na hp hreach hs,
    fun _ _ _ _ _ _ _ _ hreach hst hb hpc hi hs => keepsSize_batch hp hreach hst hb hpc hi hs⟩

/-- Eight bytes are read in all four ways. -/
theorem sizes_kept_read : (∃ s s' : State, State.step s (.user (.awaitOp (.read ⟨3, 100, 8⟩))) = .ok s' ∧
      s'.KeepsSize 0 8) ∧
    (∃ s s' : State, State.step s (.user (.awaitIo 0)) = .ok s' ∧ s'.KeepsSize 0 8) ∧
    (∃ s s' : State, State.step s (.user (.na (.read ⟨3, 100, 8⟩) 1)) = .ok s' ∧ s'.KeepsSize 0 8) ∧
    ∃ s s' : State, State.step s (.sub 0) = .ok s' ∧ s'.KeepsSize 0 8 := by
  obtain ⟨hop, hio, hna, hbatch⟩ := sizes_kept (p := .read ⟨3, 100, 8⟩) (n := 8) rfl
  have hstart : ((exec State.step (fun _ _ => True) (init 4) [.user .call, .user (.startTask 0)]).bind fun s =>
      (State.step s (.user (.awaitOp (.read ⟨3, 100, 8⟩)))).toOption.map fun _ => decide (s.nextReq = 0)) = some true :=
      by decide
  have hmade : ((exec State.step (fun _ _ => True) (init 4) [.user .call, .user (.startTask 0)]).bind fun s =>
      (State.step s (.user (.io (.read ⟨3, 100, 8⟩)))).toOption.map fun s1 => decide (s.nextReq = 0 ∧
        (State.step s1 (.user (.awaitIo 0))).toOption.isSome = true)) = some true := by decide
  have hbegun :
    ((exec State.step (fun _ _ => True) (init 4)
      [.user (.submitAndWait [.read ⟨3, 100, 8⟩]), .user (.startTask 0)]).bind
      fun s => (State.step s (.sub 0)).toOption.map fun _ => decide (s.nextReq = 0 ∧ s.stack.head? = some (.run 1) ∧
        (s.coros 1).body = .submitAndWait [.read ⟨3, 100, 8⟩] {})) = some true := by decide
  refine ⟨?_, ?_, ?_, ?_⟩
  · obtain ⟨s, s', hr, hs, hd⟩ := Run.exists_step_of_exec hstart
    have hn : s.nextReq = 0 := of_decide_eq_true hd
    exact ⟨s, s', hs, hn ▸ (hop s s' ⟨init 4, .up 4, hr⟩ hs).mpr (.inr (by decide))⟩
  · obtain ⟨s, s1, hr, hs, hd⟩ := Run.exists_step_of_exec hmade
    obtain ⟨hn, hsome⟩ := of_decide_eq_true hd
    cases hs' : State.step s1 (.user (.awaitIo 0)) with
    | error e => simp [hs', Except.toOption] at hsome
    | ok s' =>
      have hk := hio s s1 s1 s' ⟨init 4, .up 4, hr⟩ hs .refl (hn ▸ hs')
      exact ⟨s1, s', hs', hn ▸ hk.mpr (.inr (by decide))⟩
  · have hna' : (State.step (init 4) (.user (.na (.read ⟨3, 100, 8⟩) 1))).toOption.isSome = true := by decide
    cases hs : State.step (init 4) (.user (.na (.read ⟨3, 100, 8⟩) 1)) with
    | error e => simp [hs, Except.toOption] at hna'
    | ok s' => exact ⟨init 4, s', hs, (hna (init 4) s' 1 ⟨init 4, .up 4, .refl⟩ hs).mpr (.inr (by decide))⟩
  · obtain ⟨s, s', hr, hs, hd⟩ := Run.exists_step_of_exec hbegun
    obtain ⟨hn, htop, hb⟩ := of_decide_eq_true hd
    obtain ⟨rest, hst⟩ : ∃ rest, s.stack = .run 1 :: rest := ⟨s.stack.tail, (List.cons_head?_tail htop).symm⟩
    have hk := hbatch s s' 1 rest _ {} 0 0 ⟨init 4, .up 4, hr⟩ hst hb rfl rfl hs
    exact ⟨s, s', hs, by simpa [hn] using hk.mpr (.inr (by decide))⟩

/-- A read of `2 ^ 32` bytes is entered as a read of none. -/
theorem sizes_kept_fails : ¬ ∀ (p : ParameterPack) (n : ℕ), p.size = some n →
    (∀ s s', Reachable s → State.step s (.user (.awaitOp p)) = .ok s' → s'.KeepsSize s.nextReq n) ∧
    (∀ s s1 s2 s', Reachable s → State.step s (.user (.io p)) = .ok s1 → Run State.step (fun _ _ => True) s1 s2 →
      State.step s2 (.user (.awaitIo s.nextReq)) = .ok s' → s'.KeepsSize s.nextReq n) ∧
    (∀ s s' ret, Reachable s → State.step s (.user (.na p ret)) = .ok s' → s'.KeepsSize s.nextReq n) ∧
    (∀ s s' h rest q l ret i, Reachable s → s.stack = .run h :: rest → (s.coros h).body = .submitAndWait q l →
      l.pc = .begin → q[i]? = some p → State.step s (.sub ret) = .ok s' → s'.KeepsSize (s.nextReq + i) n) := by
  intro hall
  have he : ((exec State.step (fun _ _ => True) (init 4) [.user .call, .user (.startTask 0)]).bind fun s =>
      (State.step s (.user (.awaitOp (.read ⟨3, 100, 2 ^ 32⟩)))).toOption.map fun s' => decide (s.nextReq = 0 ∧
        (s'.ev.ring.sqes 0).sqe.userData = some 0 ∧ (s'.ev.ring.sqes 0).sqe.len = 0)) = some true := by decide
  obtain ⟨s, s', hr, hs, hd⟩ := Run.exists_step_of_exec he
  obtain ⟨hn, hu, hlen⟩ := of_decide_eq_true hd
  have hk := (hall (.read ⟨3, 100, 2 ^ 32⟩) (2 ^ 32) rfl).1 s s' ⟨init 4, .up 4, hr⟩ hs
  rw [hn] at hk
  rcases hk 0 ⟨_, .inl ⟨0, rfl⟩, hu, hlen⟩ with h1 | ⟨-, -, h1⟩
  · exact absurd h1 (by decide)
  · exact h1 (by decide) rfl

end EvManager
