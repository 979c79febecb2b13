import LibXpf.NetIoMux.IocpRecords

/-! # What the completion port reports

Each record is reported with the callback and the operation it was posted with, and
with a success only if the kernel ended its overlapped call with one. The
bookkeeping of the records gives how often: once for a record that is recycled,
and not at all while the port, a worker or the kernel still has it to report.
-/
namespace LibXpf.NetIoMux.Iocp
open GuardedRuns Custody

variable {n : ℕ} {s t : State n} {i key odata : ℕ} {l : Label n}

section References

/-- The endpoint and the record a worker has in hand. -/
def Pc.carries : Pc → Option (ℕ × ℕ)
  | .idle => none
  | .dequeued p => some (p.key, p.odata)
  | .observed p _ _ => some (p.key, p.odata)
  | .launching key odata => some (key, odata)
  | .rejected key odata => some (key, odata)
  | .reported key odata => some (key, odata)

/-- A packet, the kernel or a worker has the record for this endpoint. -/
def State.Refers (s : State n) (key odata : ℕ) : Prop :=
  (∃ p ∈ s.port, p.key = key ∧ p.odata = odata) ∨ (key, odata) ∈ s.kernel ∨
    ∃ w, (s.worker w).carries = some (key, odata)

theorem State.Refers.of_hand (h : t.Refers key odata) {w : Fin n} {pc : Pc} (hport : ∀ p ∈ t.port, p ∈ s.port)
    (hkernel : ∀ k ∈ t.kernel, k ∈ s.kernel) (hworker : t.worker = Function.update s.worker w pc)
    (hpc : ∀ x : ℕ × ℕ, pc.carries = some x → s.Refers x.1 x.2) : s.Refers key odata := by
  rcases h with ⟨p, hp, hpacket⟩ | hk | ⟨v, hv⟩
  · exact .inl ⟨p, hport p hp, hpacket⟩
  · exact .inr (.inl (hkernel _ hk))
  · rw [hworker, Function.update_apply] at hv
    split at hv
    · exact hpc _ hv
    · exact .inr (.inr ⟨v, hv⟩)

theorem State.Refers.of_kept (h : t.Refers key odata) {w : Fin n} {pc : Pc} (hport : t.port = s.port)
    (hkernel : t.kernel = s.kernel) (hworker : t.worker = Function.update s.worker w pc)
    (hpc : pc.carries = (s.worker w).carries) : s.Refers key odata := by
  apply h.of_hand (fun p hp => hport ▸ hp) (fun k hk => hkernel ▸ hk) hworker
  intro x hx
  exact .inr (.inr ⟨w, hpc ▸ hx⟩)

theorem State.Refers.of_post {ep : ℕ} {call : AsyncCall} {queued : Bool}
    (h : (s.post ep call queued).Refers key odata) :
    s.Refers key odata ∨ key = ep ∧ odata = s.nextRecord := by
  rcases h with ⟨p, hp, hpacket⟩ | hk
  · cases queued with
    | false => exact .inl (.inl ⟨p, hp, hpacket⟩)
    | true =>
      rcases List.mem_append.mp hp with hp | hp
      · exact .inl (.inl ⟨p, hp, hpacket⟩)
      · cases List.mem_singleton.mp hp
        exact .inr ⟨hpacket.1.symm, hpacket.2.symm⟩
  · exact .inl (.inr hk)

/-- Only a call of an `async` function makes a reference to a record that was not there. -/
theorem State.Refers.of_move (h : t.Refers key odata) (hmove : Move s l t) :
    s.Refers key odata ∨ odata = s.nextRecord ∧ ∃ q, t.posted = s.posted ++ [(key, q)] := by
  cases hmove with
  | stutter => exact .inl h
  | failed => exact .inl h
  | created => exact .inl h
  | joined => exact .inl h
  | departed => exact .inl h
  | posted ep call ioctl queued =>
    exact h.of_post.imp_right (fun ⟨hkey, hodata⟩ => ⟨hodata, _, by rw [hkey]; rfl⟩)
  | loaded ep call ioctl queued ctx =>
    exact (State.Refers.of_post h).imp_right (fun ⟨hkey, hodata⟩ => ⟨hodata, _, by rw [hkey]; rfl⟩)
  | dequeued w p rest hpc hport =>
    refine .inl (h.of_hand ?_ (fun k hk => hk) rfl ?_)
    · intro q hq
      rw [hport]
      exact List.mem_cons_of_mem p hq
    · intro x hx
      cases hx
      exact .inl ⟨p, by rw [hport]; exact List.mem_cons_self, rfl, rfl⟩
  | lost w p rest hport =>
    refine .inl (h.imp_left ?_)
    rintro ⟨q, hq, hpacket⟩
    exact ⟨q, by rw [hport]; exact List.mem_cons_of_mem p hq, hpacket⟩
  | observed w result p o hpc => exact .inl (h.of_kept rfl rfl rfl (by rw [hpc]; rfl))
  | concluded w c provisioning handle p st result o hpc =>
    exact .inl (h.of_kept rfl rfl rfl (by rw [hpc]; rfl))
  | initiated w c provisioning handle p st result o hpc =>
    rw [State.initiate] at h
    split at h
    · exact .inl (h.of_kept rfl rfl rfl (by rw [hpc]; rfl))
    · exact .inl (h.of_kept rfl rfl rfl (by rw [hpc]; rfl))
    · exact .inl (h.of_kept rfl rfl rfl (by rw [hpc]; rfl))
  | submitted w c key' odata' o hpc =>
    refine .inl ?_
    rcases h with hp | hk | ⟨v, hv⟩
    · exact .inl hp
    · rcases List.mem_append.mp hk with hk | hk
      · exact .inr (.inl hk)
      · cases List.mem_singleton.mp hk
        exact .inr (.inr ⟨w, by rw [hpc]; rfl⟩)
    · have hworker : (Function.update s.worker w Pc.idle v).carries = some (key, odata) := hv
      rw [Function.update_apply] at hworker
      split at hworker
      · cases hworker
      · exact .inr (.inr ⟨v, hworker⟩)
  | refused w c key' odata' hpc => exact .inl (h.of_kept rfl rfl rfl (by rw [hpc]; rfl))
  | rejected w key' odata' o hpc => exact .inl (h.of_kept rfl rfl rfl (by rw [hpc]; rfl))
  | recycled w key' odata' o hpc =>
    exact .inl (h.of_hand (fun p hp => hp) (fun k hk => hk) rfl (fun x hx => absurd hx (Option.some_ne_none x).symm))
  | completed k ret bytes hk =>
    refine .inl ?_
    rcases h with ⟨p, hp, hpacket⟩ | hkernel | hv
    · rcases List.mem_append.mp hp with hp | hp
      · exact .inl ⟨p, hp, hpacket⟩
      · cases List.mem_singleton.mp hp
        rw [← hpacket.1, ← hpacket.2]
        exact .inr (.inl hk)
    · exact .inr (.inl (List.mem_of_mem_erase hkernel))
    · exact .inr (.inr hv)

end References

section Requests

/-- The record is for the same request. -/
structure NetIoMuxOverlapped.Same (o q : NetIoMuxOverlapped) : Prop where
  ioType : o.ioType = q.ioType
  callback : o.callback = q.callback
  buf : o.buf = q.buf
  len : o.len = q.len

theorem NetIoMuxOverlapped.Same.refl (o : NetIoMuxOverlapped) : o.Same o := ⟨rfl, rfl, rfl, rfl⟩

theorem NetIoMuxOverlapped.Same.trans {o q r : NetIoMuxOverlapped} (h : o.Same q) (h' : q.Same r) : o.Same r :=
  ⟨h.ioType.trans h'.ioType, h.callback.trans h'.callback, h.buf.trans h'.buf, h.len.trans h'.len⟩

theorem posted_move (hmove : Move s l t) : t.posted = s.posted ∧ t.nextRecord = s.nextRecord ∨
    ∃ ep call, t.posted = s.posted ++ [(ep, AsyncCall.record s.nextRecord call)] ∧
      t.nextRecord = s.nextRecord + 1 := by
  cases hmove with
  | posted ep call => exact .inr ⟨ep, call, rfl, rfl⟩
  | loaded ep call => exact .inr ⟨ep, call, rfl, rfl⟩
  | initiated w c provisioning handle p st result o hpc =>
    rw [State.initiate]
    split <;> exact .inl ⟨rfl, rfl⟩
  | _ => exact .inl ⟨rfl, rfl⟩

theorem posted_getElem {x : ℕ × NetIoMuxOverlapped} (hmove : Move s l t) (h : s.posted[i]? = some x) :
    t.posted[i]? = some x := by
  rcases posted_move hmove with ⟨heq, _⟩ | ⟨ep, call, heq, _⟩
  · rwa [heq]
  · rw [heq, List.getElem?_append_left (List.getElem?_eq_some_iff.mp h).1]
    exact h

theorem record_post {ep : ℕ} {call : AsyncCall} {queued : Bool} {o : NetIoMuxOverlapped}
    (h : (s.post ep call queued).record i = some o) :
    s.record i = some o ∨ i = s.nextRecord ∧ o = AsyncCall.record s.nextRecord call := by
  have hupdate : Function.update s.record s.nextRecord (some (AsyncCall.record s.nextRecord call)) i = some o := h
  rw [Function.update_apply] at hupdate
  split at hupdate
  · next hi => exact .inr ⟨hi, (Option.some.inj hupdate).symm⟩
  · exact .inl hupdate

/-- A record changes only within its request, and a new one is as it was posted. -/
theorem record_move {o : NetIoMuxOverlapped} (hmove : Move s l t) (h : t.record i = some o) :
    (∃ q, s.record i = some q ∧ o.Same q) ∨ i = s.nextRecord ∧ ∃ ep, t.posted = s.posted ++ [(ep, o)] := by
  cases hmove with
  | posted ep call =>
    rcases record_post h with ho | ⟨hi, rfl⟩
    · exact .inl ⟨o, ho, .refl o⟩
    · exact .inr ⟨hi, ep, rfl⟩
  | loaded ep call =>
    rcases record_post h with ho | ⟨hi, rfl⟩
    · exact .inl ⟨o, ho, .refl o⟩
    · exact .inr ⟨hi, ep, rfl⟩
  | initiated w c provisioning handle p st result q hpc hq =>
    refine .inl ?_
    rw [State.initiate] at h
    split at h
    · exact ⟨o, h, .refl o⟩
    · exact ⟨o, h, .refl o⟩
    · have hupdate : Function.update s.record p.odata (some (q.fire c)) i = some o := h
      rw [Function.update_apply] at hupdate
      split at hupdate
      · next hi =>
        rw [hi, ← Option.some.inj hupdate]
        exact ⟨q, hq, rfl, rfl, rfl, rfl⟩
      · exact ⟨o, hupdate, .refl o⟩
  | recycled w key odata q hpc =>
    have hupdate : Function.update s.record odata none i = some o := h
    rw [Function.update_apply] at hupdate
    split at hupdate
    · cases hupdate
    · exact .inl ⟨o, hupdate, .refl o⟩
  | _ => exact .inl ⟨o, h, .refl o⟩

/-- Records and references are those of the requests that were posted. -/
structure Matched (s : State n) : Prop where
  numbered : s.posted.length = s.nextRecord
  recognized : ∀ x ∈ s.posted, x.2.ioType ≠ .invalid
  records : ∀ i o, s.record i = some o → ∃ ep q, s.posted[i]? = some (ep, q) ∧ o.Same q
  keys : ∀ key odata, s.Refers key odata → ∃ q, s.posted[odata]? = some (key, q)

theorem record_ioType (odata : ℕ) (call : AsyncCall) :
    (AsyncCall.record odata call).ioType = AsyncCall.ioType call := by
  cases call <;> rfl

namespace Matched

theorem initial (n : ℕ) : Matched (State.initial n) where
  numbered := rfl
  recognized x hx := absurd hx List.not_mem_nil
  records i o ho := absurd ho (Option.some_ne_none o).symm
  keys key odata h := by
    rcases h with ⟨p, hp, _⟩ | hk | ⟨w, hw⟩
    · cases hp
    · cases hk
    · cases hw

theorem move (h : Matched s) (hmove : Move s l t) : Matched t where
  numbered := by
    rcases posted_move hmove with ⟨hposted, hnext⟩ | ⟨ep, call, hposted, hnext⟩
    · rw [hposted, hnext, h.numbered]
    · rw [hposted, hnext, List.length_append, h.numbered]
      rfl
  recognized x hx := by
    rcases posted_move hmove with ⟨hposted, _⟩ | ⟨ep, call, hposted, _⟩
    · exact h.recognized x (hposted ▸ hx)
    · rw [hposted] at hx
      rcases List.mem_append.mp hx with hx | hx
      · exact h.recognized x hx
      · rw [List.mem_singleton.mp hx, record_ioType]
        cases call <;> exact EIoType.noConfusion
  records i o ho := by
    rcases record_move hmove ho with ⟨q, hq, hsame⟩ | ⟨rfl, ep, hposted⟩
    · obtain ⟨ep, r, hr, hqr⟩ := h.records i q hq
      exact ⟨ep, r, posted_getElem hmove hr, hsame.trans hqr⟩
    · refine ⟨ep, o, ?_, .refl o⟩
      rw [hposted, ← h.numbered, List.getElem?_concat_length]
  keys key odata href := by
    rcases href.of_move hmove with href | ⟨rfl, q, hposted⟩
    · obtain ⟨q, hq⟩ := h.keys key odata href
      exact ⟨q, posted_getElem hmove hq⟩
    · refine ⟨q, ?_⟩
      rw [hposted, ← h.numbered, List.getElem?_concat_length]

/-- A record and who has it belong to one request. -/
theorem request (h : Matched s) {o : NetIoMuxOverlapped} (href : s.Refers key odata) (ho : s.record odata = some o) :
    ∃ q, s.posted[odata]? = some (key, q) ∧ o.Same q := by
  obtain ⟨q, hq⟩ := h.keys key odata href
  obtain ⟨ep, r, hr, hsame⟩ := h.records odata o ho
  rw [hq] at hr
  obtain ⟨rfl, rfl⟩ := Prod.mk.inj (Option.some.inj hr)
  exact ⟨q, hq, hsame⟩

theorem ioType_ne (h : Matched s) {o : NetIoMuxOverlapped} (ho : s.record i = some o) : o.ioType ≠ .invalid := by
  obtain ⟨ep, q, hq, hsame⟩ := h.records i o ho
  rw [hsame.ioType]
  exact h.recognized _ (List.mem_of_getElem? hq)

end Matched
end Requests

section Truth

/-- A callback with `EE_SUCCESS`. -/
def Action.succeeds : Action → Bool
  | .callback _ _ ec _ _ _ => decide (ec = .success)
  | _ => false

/-- A worker has a result only where the kernel ended the overlapped call without an error. -/
structure Truthful (s : State n) : Prop where
  packets : ∀ p ∈ s.port, ∀ o, s.record p.odata = some o → o.fired = true → p.ret = true → p.odata ∈ s.succeeded
  dequeued : ∀ w p o, s.worker w = .dequeued p → s.record p.odata = some o → o.fired = true →
    p.odata ∈ s.succeeded
  observed : ∀ w p st result, s.worker w = .observed p st result → result ≠ none → p.odata ∈ s.succeeded

namespace Truthful

theorem initial (n : ℕ) : Truthful (State.initial n) where
  packets _ hp := absurd hp List.not_mem_nil
  dequeued _ _ _ h := by cases h
  observed _ _ _ _ h := by cases h

/-- The hand of one worker changes, and perhaps its record is fired, which no packet has then. -/
theorem of_hand (h : Truthful s) (hplaced : Placed s) {w : Fin n} {pc : Pc} (hport : ∀ p ∈ t.port, p ∈ s.port)
    (hworker : t.worker = Function.update s.worker w pc) (hsucceeded : t.succeeded = s.succeeded)
    (hrecord : ∀ i o, t.record i = some o → o.fired = true →
      s.record i = some o ∨ (s.worker w).held = some i)
    (hdequeued : ∀ p o, pc = .dequeued p → t.record p.odata = some o → o.fired = true → p.odata ∈ s.succeeded)
    (hobserved : ∀ p st result, pc = .observed p st result → result ≠ none → p.odata ∈ s.succeeded) :
    Truthful t where
  packets p hp o ho hfired hret := by
    rw [hsucceeded]
    rcases hrecord p.odata o ho hfired with ho | hheld
    · exact h.packets p (hport p hp) o ho hfired hret
    · exact absurd rfl (hplaced.port_not_held (hport p hp) hheld)
  dequeued v p o hv ho hfired := by
    rw [hworker, Function.update_apply] at hv
    rw [hsucceeded]
    split at hv
    · exact hdequeued p o hv ho hfired
    · next hvw =>
      rcases hrecord p.odata o ho hfired with ho | hheld
      · exact h.dequeued v p o hv ho hfired
      · exact absurd (hplaced.holder_unique (by rw [hv]; rfl) hheld) hvw
  observed v p st result hv hresult := by
    rw [hworker, Function.update_apply] at hv
    rw [hsucceeded]
    split at hv
    · exact hobserved p st result hv hresult
    · exact h.observed v p st result hv hresult

/-- The same where the worker is past the result. -/
theorem of_past (h : Truthful s) (hplaced : Placed s) {w : Fin n} {pc : Pc} (hport : ∀ p ∈ t.port, p ∈ s.port)
    (hworker : t.worker = Function.update s.worker w pc) (hsucceeded : t.succeeded = s.succeeded)
    (hrecord : ∀ i o, t.record i = some o → o.fired = true →
      s.record i = some o ∨ (s.worker w).held = some i)
    (hpast : pc.opening = false) : Truthful t := by
  apply h.of_hand hplaced hport hworker hsucceeded hrecord
  · rintro p _ rfl
    cases hpast
  · rintro p st result rfl
    cases hpast

theorem of_same (h : Truthful s) (hport : ∀ p ∈ t.port, p ∈ s.port) (hrecord : t.record = s.record)
    (hworker : t.worker = s.worker) (hsucceeded : t.succeeded = s.succeeded) : Truthful t where
  packets p hp o ho := by
    rw [hsucceeded]
    exact h.packets p (hport p hp) o (hrecord ▸ ho)
  dequeued w p o hw ho := by
    rw [hsucceeded]
    exact h.dequeued w p o (hworker ▸ hw) (hrecord ▸ ho)
  observed w p st result hw := by
    rw [hsucceeded]
    exact h.observed w p st result (hworker ▸ hw)

/-- A record that was just posted was not fired. -/
theorem post (h : Truthful s) (hplaced : Placed s) {ep : ℕ} {call : AsyncCall} {queued : Bool} :
    Truthful (s.post ep call queued) := by
  have hold : ∀ i o, (s.post ep call queued).record i = some o → o.fired = true → s.record i = some o := by
    intro i o ho hfired
    rcases record_post ho with ho | ⟨_, rfl⟩
    · exact ho
    · cases call <;> cases hfired
  constructor
  · intro p hp o ho hfired hret
    have hrecord := hold p.odata o ho hfired
    cases queued with
    | false => exact h.packets p hp o hrecord hfired hret
    | true =>
      rcases List.mem_append.mp hp with hp | hp
      · exact h.packets p hp o hrecord hfired hret
      · rw [List.mem_singleton.mp hp, hplaced.fresh s.nextRecord le_rfl] at hrecord
        cases hrecord
  · exact fun w p o hw ho hfired => h.dequeued w p o hw (hold p.odata o ho hfired) hfired
  · exact h.observed

theorem move (h : Truthful s) (hplaced : Placed s) (hmove : Move s l t) : Truthful t := by
  cases hmove with
  | stutter => exact h
  | failed => exact h.of_same (fun _ => id) rfl rfl rfl
  | created => exact h.of_same (fun _ => id) rfl rfl rfl
  | joined => exact h.of_same (fun _ => id) rfl rfl rfl
  | departed => exact h.of_same (fun _ => id) rfl rfl rfl
  | posted => exact h.post hplaced
  | loaded ep call ioctl queued ctx =>
    have hloaded : Truthful (s.setContext ep ctx) := h.of_same (fun _ => id) rfl rfl rfl
    exact hloaded.post (hplaced.of_same rfl rfl rfl rfl rfl rfl)
  | dequeued w p rest hpc hport hret =>
    have hmem : ∀ q ∈ rest, q ∈ s.port := by
      rw [hport]
      exact fun q => List.mem_cons_of_mem p
    refine h.of_hand hplaced hmem rfl rfl (fun i q hq _ => .inl hq) ?_ (fun q st result hq => by cases hq)
    intro q o hq ho hfired
    cases hq
    exact h.packets p (by rw [hport]; exact List.mem_cons_self) o ho hfired hret
  | lost w p rest hport =>
    refine h.of_same ?_ rfl rfl rfl
    rw [hport]
    exact fun q => List.mem_cons_of_mem p
  | observed w result p o hpc ho =>
    refine h.of_hand hplaced (fun _ => id) rfl rfl (fun i q hq _ => .inl hq) (fun q r hq => by cases hq) ?_
    intro q st result' hq hresult
    cases hq
    split at hresult
    · next hfired => exact h.dequeued w p o hpc ho hfired
    · exact absurd rfl hresult
  | concluded w c provisioning handle p st result o hpc =>
    exact h.of_past hplaced (fun _ => id) rfl rfl (fun i q hq _ => .inl hq) rfl
  | initiated w c provisioning handle p st result o hpc ho =>
    rw [State.initiate]
    split
    · exact h.of_past hplaced (fun _ => id) rfl rfl (fun i q hq _ => .inl hq) rfl
    · exact h.of_past hplaced (fun _ => id) rfl rfl (fun i q hq _ => .inl hq) rfl
    · refine h.of_past hplaced (fun _ => id) rfl rfl ?_ rfl
      intro i q hq _
      have hupdate : Function.update s.record p.odata (some (o.fire c)) i = some q := hq
      rw [Function.update_apply] at hupdate
      split at hupdate
      · next hi =>
        rw [hpc, hi]
        exact .inr rfl
      · exact .inl hupdate
  | submitted w c key odata o hpc =>
    exact h.of_past hplaced (fun _ => id) rfl rfl (fun i q hq _ => .inl hq) rfl
  | refused w c key odata hpc =>
    exact h.of_past hplaced (fun _ => id) rfl rfl (fun i q hq _ => .inl hq) rfl
  | rejected w key odata o hpc =>
    exact h.of_past hplaced (fun _ => id) rfl rfl (fun i q hq _ => .inl hq) rfl
  | recycled w key odata o hpc =>
    refine h.of_past hplaced (fun _ => id) rfl rfl ?_ rfl
    intro i q hq _
    have hupdate : Function.update s.record odata none i = some q := hq
    rw [Function.update_apply] at hupdate
    split at hupdate
    · cases hupdate
    · exact .inl hupdate
  | completed k ret bytes hk =>
    have hsub : ∀ j ∈ s.succeeded, j ∈ if ret then s.succeeded ++ [k.2] else s.succeeded := by
      intro j hj
      split
      · exact List.mem_append_left _ hj
      · exact hj
    refine ⟨?_, ?_, ?_⟩
    · intro p hp o ho hfired hret
      rcases List.mem_append.mp hp with hp | hp
      · exact hsub _ (h.packets p hp o ho hfired hret)
      · cases List.mem_singleton.mp hp
        cases hret
        exact List.mem_append_right _ (List.mem_singleton.mpr rfl)
    · exact fun w p o hw ho hfired => hsub _ (h.dequeued w p o hw ho hfired)
    · exact fun w p st result hw hresult => hsub _ (h.observed w p st result hw hresult)

end Truthful
/-- A callback is the one of the request, and with a success only if the call had one. -/
structure Entry.Honest (s : State n) (e : Entry) : Prop where
  request : e.action.isCallback = true →
    ∃ q, s.posted[e.odata]? = some (e.key, q) ∧ e.action.Reports q = true
  success : e.action.succeeds = true → e.odata ∈ s.succeeded

variable {c : Winsock} {o q : NetIoMuxOverlapped} {ec : EError} {result : Option ℕ} {bytes : ℕ}

theorem reports_report {tepOrPeer : TepOrPeer} {buf : Option ℕ} {len : ℕ} (hsame : o.Same q) :
    (o.report ec tepOrPeer buf len).Reports q = true := by
  simp only [NetIoMuxOverlapped.report, Action.Reports, hsame.callback, hsame.ioType, decide_true, Bool.and_self]

theorem endReport_eq (result : Option ℕ) (bytes : ℕ) (o : NetIoMuxOverlapped) :
    ∃ tepOrPeer buf len, endReport result bytes o =
      o.report (if result = none then failingError o.ioType else .success) tepOrPeer buf len := by
  unfold endReport
  cases o.ioType <;> exact ⟨_, _, _, rfl⟩

theorem failingError_ne (type : EIoType) : failingError type ≠ .success := by
  cases type <;> exact EError.noConfusion

theorem succeeds_report {tepOrPeer : TepOrPeer} {buf : Option ℕ} {len : ℕ} (hec : ec ≠ .success) :
    (o.report ec tepOrPeer buf len).succeeds = false := by
  simp only [NetIoMuxOverlapped.report, Action.succeeds, hec, decide_false]

theorem refused_ne {st : EStatus} {hasContext : Bool} {tepOrPeer : TepOrPeer} {buf : Option ℕ}
    {messages : List String} (h : prepare c st hasContext o = .refused ec tepOrPeer buf messages) :
    ec ≠ .success := by
  have htransfer : ∀ initiated, prepareTransfer st initiated o = .refused ec tepOrPeer buf messages →
      ec ≠ .success := by
    intro initiated hrefused
    rw [prepareTransfer] at hrefused
    split at hrefused
    · cases hrefused
      exact EError.noConfusion
    · cases hrefused
  unfold prepare at h
  cases hio : o.ioType with
  | accept =>
    simp only [hio] at h
    repeat' split at h
    all_goals cases h
    all_goals exact EError.noConfusion
  | connect =>
    simp only [hio] at h
    repeat' split at h
    all_goals cases h
    all_goals exact EError.noConfusion
  | invalid =>
    simp only [hio] at h
    cases h
  | _ =>
    simp only [hio] at h
    exact htransfer _ h

theorem prepare_ne_unrecognized {st : EStatus} {hasContext : Bool} (hio : o.ioType ≠ .invalid) :
    prepare c st hasContext o ≠ .unrecognized := by
  intro h
  unfold prepare at h
  cases htype : o.ioType with
  | invalid => exact hio htype
  | accept =>
    simp only [htype] at h
    repeat' split at h
    all_goals cases h
  | connect =>
    simp only [htype] at h
    repeat' split at h
    all_goals cases h
  | _ =>
    simp only [htype, prepareTransfer] at h
    split at h <;> cases h

/-- The operations that write no status when they fail write none before they are tried. -/
theorem pending_eq_none {st : EStatus} {hasContext : Bool} {pending : Option EStatus}
    (h : prepare c st hasContext o = .ready pending) (hnone : failingStatus o.ioType = none) :
    pending = none := by
  have htransfer : ∀ initiated, prepareTransfer st initiated o = .ready pending → pending = none := by
    intro initiated hready
    rw [prepareTransfer] at hready
    split at hready
    · cases hready
    · exact (Prepared.ready.inj hready).symm
  cases hio : o.ioType with
  | accept => simp only [failingStatus, hio, reduceCtorEq] at hnone
  | connect => simp only [failingStatus, hio, reduceCtorEq] at hnone
  | invalid => simp only [prepare, hio, reduceCtorEq] at h
  | _ =>
    simp only [prepare, hio] at h
    exact htransfer _ h

theorem succeeded_move (hmove : Move s l t) : ∀ j ∈ s.succeeded, j ∈ t.succeeded := by
  intro j hj
  cases hmove with
  | completed k ret =>
    dsimp only
    split
    · exact List.mem_append_left _ hj
    · exact hj
  | initiated w c provisioning handle p st result o =>
    rw [State.initiate]
    split <;> exact hj
  | _ => exact hj

theorem Entry.Honest.of_move {e : Entry} (h : e.Honest s) (hmove : Move s l t) : e.Honest t where
  request hcallback := by
    obtain ⟨q, hq, hreports⟩ := h.request hcallback
    exact ⟨q, posted_getElem hmove hq, hreports⟩
  success hsuccess := succeeded_move hmove _ (h.success hsuccess)

/-- The actions that are no callbacks say nothing. -/
theorem Entry.Honest.of_silent {e : Entry} (h : e.action.isCallback = false) : e.Honest s where
  request hcallback := by
    rw [h] at hcallback
    cases hcallback
  success hsuccess := by
    cases haction : e.action with
    | callback =>
      rw [haction] at h
      cases h
    | submit accepted =>
      rw [haction] at hsuccess
      cases hsuccess
    | recycle =>
      rw [haction] at hsuccess
      cases hsuccess

/-- A worker reports an error for the record in its hand. -/
theorem Entry.Honest.of_error {w : Fin n} {tepOrPeer : TepOrPeer} {buf : Option ℕ} {len : ℕ} (hmatched : Matched s)
    (hcarries : (s.worker w).carries = some (key, odata)) (ho : s.record odata = some o) (hec : ec ≠ .success) :
    Entry.Honest s ⟨odata, key, o.report ec tepOrPeer buf len⟩ where
  request _ := by
    obtain ⟨q, hq, hsame⟩ := hmatched.request (.inr (.inr ⟨w, hcarries⟩)) ho
    exact ⟨q, hq, reports_report hsame⟩
  success hsuccess := by
    rw [succeeds_report hec] at hsuccess
    cases hsuccess

theorem honest_move (h : ∀ e ∈ s.log, e.Honest s) (hmatched : Matched s) (htruthful : Truthful s)
    (hmove : Move s l t) : ∀ e ∈ t.log, e.Honest t := by
  have hkept : ∀ e ∈ s.log, e.Honest t := fun e he => (h e he).of_move hmove
  have hmore : ∀ e, e.Honest s → ∀ x ∈ s.log ++ [e], x.Honest t := by
    intro e he x hx
    rcases List.mem_append.mp hx with hx | hx
    · exact hkept x hx
    · rw [List.mem_singleton.mp hx]
      exact he.of_move hmove
  cases hmove with
  | concluded w c provisioning handle p st result o hpc ho =>
    refine hmore _ ?_
    obtain ⟨tepOrPeer, buf, len, heq⟩ := endReport_eq result p.bytes o
    have hcarries : (s.worker w).carries = some (p.key, p.odata) := by rw [hpc]; rfl
    rw [heq]
    cases result with
    | none => exact .of_error hmatched hcarries ho (failingError_ne o.ioType)
    | some b =>
      refine ⟨fun _ => ?_, fun _ => htruthful.observed w p st (some b) hpc (Option.some_ne_none b)⟩
      obtain ⟨q, hq, hsame⟩ := hmatched.request (.inr (.inr ⟨w, hcarries⟩)) ho
      exact ⟨q, hq, reports_report hsame⟩
  | initiated w c provisioning handle p st result o hpc ho =>
    rw [State.initiate] at *
    split
    · next ec tepOrPeer buf messages hprepare =>
      simp only [hprepare] at hmore
      exact hmore _ (.of_error hmatched (by rw [hpc]; rfl) ho (refused_ne hprepare))
    · next hprepare =>
      simp only [hprepare] at hkept
      exact hkept
    · next pending hprepare =>
      simp only [hprepare] at hkept
      exact hkept
  | submitted => exact hmore _ (.of_silent rfl)
  | refused => exact hmore _ (.of_silent rfl)
  | rejected w key odata o hpc ho =>
    exact hmore _ (.of_error hmatched (by rw [hpc]; rfl) ho (failingError_ne o.ioType))
  | recycled => exact hmore _ (.of_silent rfl)
  | _ => exact hkept

end Truth

section Counting

theorem share_owed_le (pc : Pc) (i : ℕ) : share pc.owed i ≤ share pc.held i := by
  cases pc with
  | reported key odata => exact Nat.zero_le _
  | _ => exact le_rfl

/-- Each record was reported, or somebody still has it to report, but not both. -/
def Counted (s : State n) : Prop :=
  ∀ i, s.reports i + s.found Pc.owed i = if i < s.nextRecord then 1 else 0

namespace Counted

theorem initial (n : ℕ) : Counted (State.initial n) := by
  intro i
  have hempty : holding (fun w : Fin n => Pc.owed ((State.initial n).worker w)) i = 0 :=
    holding_empty (fun w => rfl)
  have hnone : ¬ i < (State.initial n).nextRecord := Nat.not_lt_zero i
  rw [State.found, hempty, if_neg hnone]
  rfl

theorem of_same (h : Counted s) (hlog : t.log = s.log) (hport : t.port = s.port) (hkernel : t.kernel = s.kernel)
    (hlost : t.lost = s.lost) (hworker : t.worker = s.worker) (hnext : t.nextRecord = s.nextRecord) :
    Counted t := by
  intro i
  rw [found_congr hport hkernel hlost hworker, hnext, ← h i, State.reports, hlog]
  rfl

/-- The worker goes on with the record it has, and reports nothing. -/
theorem of_kept (h : Counted s) {w : Fin n} {pc : Pc} {es : List Entry} (hlog : t.log = s.log ++ es)
    (hsilent : ∀ e ∈ es, e.action.isCallback = false) (hport : t.port = s.port) (hkernel : t.kernel = s.kernel)
    (hlost : t.lost = s.lost) (hworker : t.worker = Function.update s.worker w pc)
    (hnext : t.nextRecord = s.nextRecord) (howed : pc.owed = (s.worker w).owed) : Counted t := by
  intro i
  have hfound := found_hand (f := Pc.owed) (i := i) hport hkernel hlost hworker
  have hreports : t.reports i = s.reports i := by
    rw [State.reports, State.reports, hlog, List.countP_append, Nat.add_eq_left, List.countP_eq_zero]
    intro e he
    rw [decide_eq_true_eq, hsilent e he]
    exact fun hand => Bool.false_ne_true hand.2
  rw [howed] at hfound
  rw [hnext, ← h i, hreports]
  omega

/-- The worker reports the record it has. -/
theorem of_reported (h : Counted s) {w : Fin n} {pc : Pc} {action : Action}
    (hlog : t.log = s.log ++ [⟨odata, key, action⟩]) (hcallback : action.isCallback = true)
    (hport : t.port = s.port) (hkernel : t.kernel = s.kernel) (hlost : t.lost = s.lost)
    (hworker : t.worker = Function.update s.worker w pc) (hnext : t.nextRecord = s.nextRecord)
    (howed : (s.worker w).owed = some odata) (hpc : pc.owed = none) : Counted t := by
  intro i
  have hfound := found_hand (f := Pc.owed) (i := i) hport hkernel hlost hworker
  have hreports := reports_append hlog i
  simp only [hcallback, and_true] at hreports
  rw [howed, hpc, share_some, share_none] at hfound
  rw [hnext, ← h i, hreports]
  omega

theorem post (h : Counted s) {ep : ℕ} {call : AsyncCall} {queued : Bool} : Counted (s.post ep call queued) := by
  intro i
  have hi := h i
  rw [found_post]
  change s.reports i + _ = if i < s.nextRecord + 1 then 1 else 0
  split at hi <;> split <;> split <;> omega

theorem move (h : Counted s) (hmatched : Matched s) (hmove : Move s l t) : Counted t := by
  have hnil : s.log = s.log ++ [] := (List.append_nil _).symm
  have hsilent : ∀ e ∈ ([] : List Entry), e.action.isCallback = false := fun e he => absurd he List.not_mem_nil
  have hsingle : ∀ x : Entry, x.action.isCallback = false → ∀ e ∈ [x], e.action.isCallback = false := by
    intro x hx e he
    rwa [List.mem_singleton.mp he]
  cases hmove with
  | stutter => exact h
  | failed => exact h.of_same rfl rfl rfl rfl rfl rfl
  | created => exact h.of_same rfl rfl rfl rfl rfl rfl
  | joined => exact h.of_same rfl rfl rfl rfl rfl rfl
  | departed => exact h.of_same rfl rfl rfl rfl rfl rfl
  | posted => exact h.post
  | loaded ep call ioctl queued ctx =>
    have hloaded : Counted (s.setContext ep ctx) := h.of_same rfl rfl rfl rfl rfl rfl
    exact hloaded.post
  | dequeued w p rest hpc hport =>
    intro i
    have hfound := found_dequeued (s := s) (f := Pc.owed) (i := i) (w := w) (.dequeued p) hport
    have hi := h i
    rw [hpc] at hfound
    simp only [Pc.owed, Pc.held, share_none, share_some] at hfound
    change s.reports i + _ = if i < s.nextRecord then 1 else 0
    omega
  | lost w p rest hport =>
    intro i
    rw [found_lost hport]
    exact h i
  | observed w result p o hpc => exact h.of_kept hnil hsilent rfl rfl rfl rfl rfl (by rw [hpc]; rfl)
  | concluded w c provisioning handle p st result o hpc =>
    obtain ⟨tepOrPeer, buf, len, heq⟩ := endReport_eq result p.bytes o
    refine h.of_reported rfl ?_ rfl rfl rfl rfl rfl (by rw [hpc]; rfl) rfl
    rw [heq]
    rfl
  | initiated w c provisioning handle p st result o hpc ho =>
    rw [State.initiate]
    split
    · exact h.of_reported rfl rfl rfl rfl rfl rfl rfl (by rw [hpc]; rfl) rfl
    · next hprepare =>
      -- No record of an unknown operation was ever posted.
      exact absurd hprepare (prepare_ne_unrecognized (hmatched.ioType_ne ho))
    · exact h.of_kept hnil hsilent rfl rfl rfl rfl rfl (by rw [hpc]; rfl)
  | submitted w c key odata o hpc =>
    intro i
    have hfound := found_submitted (s := s) (f := Pc.owed) (i := i) (w := w) .idle key odata (.submit true)
    have hreports : (((s.toKernel key odata).logged key odata (.submit true)).setWorker w .idle).reports i =
        s.reports i := by
      rw [reports_append (s := s) (e := ⟨odata, key, .submit true⟩) rfl i]
      simp only [Action.isCallback, Bool.false_eq_true, and_false, if_false, Nat.add_zero]
    have hi := h i
    rw [hpc] at hfound
    simp only [Pc.owed, Pc.held, share_none, share_some] at hfound
    rw [hreports]
    change s.reports i + _ = if i < s.nextRecord then 1 else 0
    omega
  | refused w c key odata hpc =>
    exact h.of_kept rfl (hsingle _ rfl) rfl rfl rfl rfl rfl (by rw [hpc]; rfl)
  | rejected w key odata o hpc => exact h.of_reported rfl rfl rfl rfl rfl rfl rfl (by rw [hpc]; rfl) rfl
  | recycled w key odata o hpc =>
    exact h.of_kept rfl (hsingle _ rfl) rfl rfl rfl rfl rfl (by rw [hpc]; rfl)
  | completed k ret bytes hk =>
    intro i
    rw [found_completed hk]
    exact h i

end Counted
end Counting

/-- The books of the port. A record that is allocated is in one place, and one that was
recycled in none; it was reported once, or somebody has it to report and it was not
reported; and what was reported is true of the request. -/
structure Settled (s : State n) : Prop where
  placed : ∀ i, s.found Pc.held i = if (s.record i).isSome then 1 else 0
  counted : ∀ i, s.reports i + s.found Pc.owed i = if i < s.nextRecord then 1 else 0
  recycled : ∀ i < s.nextRecord, s.record i = none → s.reports i = 1
  honest : ∀ e ∈ s.log, e.Honest s

/-- The invariant. -/
structure Kept (s : State n) : Prop where
  placed : Placed s
  matched : Matched s
  truthful : Truthful s
  counted : Counted s
  honest : ∀ e ∈ s.log, e.Honest s

namespace Kept

theorem initial (n : ℕ) : Kept (State.initial n) :=
  ⟨.initial n, .initial n, .initial n, .initial n, fun _ he => absurd he List.not_mem_nil⟩

theorem move (h : Kept s) (hmove : Move s l t) : Kept t :=
  ⟨h.placed.move hmove, h.matched.move hmove, h.truthful.move h.placed hmove, h.counted.move h.matched hmove,
    honest_move h.honest h.matched h.truthful hmove⟩

/-- Nobody owes a report for a record that nobody holds. -/
theorem reports_of_recycled (h : Kept s) (hi : i < s.nextRecord) (hnone : s.record i = none) :
    s.reports i = 1 := by
  have hcounted := h.counted i
  have hplaced := h.placed.once i
  rw [hnone] at hplaced
  rw [if_pos hi] at hcounted
  have hle : holding (fun w => (s.worker w).owed) i ≤ holding (fun w => (s.worker w).held) i := by
    apply Finset.sum_le_sum
    exact fun w _ => share_owed_le (s.worker w) i
  simp only [State.found, Option.isSome_none, Bool.false_eq_true, if_false] at hplaced hcounted
  omega

/-- A worker that is past the callback has called it. -/
theorem reports_of_reported (h : Kept s) {w : Fin n} (hpc : s.worker w = .reported key i) : s.reports i ≠ 0 := by
  have hcounted := h.counted i
  have hplaced := h.placed.once i
  -- The hand holds the record and owes nothing for it, and no other hand holds it.
  have howed := holding_update (fun v => (s.worker v).held) w none i
  have hle : holding (fun v => (s.worker v).owed) i ≤
      holding (Function.update (fun v => (s.worker v).held) w none) i := by
    apply Finset.sum_le_sum
    intro v _
    rw [Function.update_apply]
    split
    · next hv =>
      simp only [hv, hpc, Pc.owed, le_refl]
    · exact share_owed_le (s.worker v) i
  obtain ⟨o, ho⟩ := h.placed.held_record (i := i) (w := w) (by rw [hpc]; rfl)
  have hlt : i < s.nextRecord := by
    by_contra hge
    rw [h.placed.fresh i (not_lt.mp hge)] at ho
    cases ho
  rw [hpc, Pc.held, share_some, if_pos rfl, share_none] at howed
  rw [ho, Option.isSome_some, if_pos rfl] at hplaced
  rw [if_pos hlt] at hcounted
  simp only [State.found] at hplaced hcounted
  omega

theorem settled (h : Kept s) : Settled s where
  placed := h.placed.once
  counted := h.counted
  recycled _ hi hnone := h.reports_of_recycled hi hnone
  honest := h.honest

end Kept

/-- However the workers, the kernel and the callers interleave, and whether or not an
endpoint departs, the books are in order up to the step that faults, if one does. -/
theorem settled_untilFault (n : ℕ) (labels : List (Label n)) :
    UntilFault step Settled (State.initial n) labels := by
  have hkept : UntilFault step Kept (State.initial n) labels :=
    untilFault_of_invariant (fun s l t hs hstep => hs.move (step_move hstep)) (Kept.initial n) labels
  exact hkept.mono (fun _ => Kept.settled)

end LibXpf.NetIoMux.Iocp
