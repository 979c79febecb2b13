import LibXpf.NetIoMux.Machine
import LibXpf.NetIoMux.QueueLoops

/-! # The moves of the machine

Every step that does not fault is one of the moves below, with what was checked
before it. Invariants go through the moves and never unfold the step.
-/
namespace LibXpf.NetIoMux

variable {n : ℕ} {b : Backend} {s t : State n}

/-- The moves of a worker that touch nothing but its place. -/
inductive Turn (s : State n) : Pc → Pc → Prop
  | noCompletion (h : s.mCompletionList = []) : Turn s .idle .polled
  | noReady (h : s.mReadyList = []) : Turn s .polled (.waiting 0)
  | contextNull {ep cnt : ℕ} (h : s.context ep = none) : Turn s (.popped ep cnt) (.waiting cnt)
  | contextRead {ep cnt : ℕ} (h : s.context ep ≠ none) : Turn s (.popped ep cnt) (.fetched ep cnt)
  | noWait {cnt : ℕ} (h : ¬ cnt < MAX_READY_LIST_LEN) : Turn s (.waiting cnt) .idle
  | eventContext {evt : Event} {rest : List Event} :
    Turn s (.handling (evt :: rest)) (.holding (s.context evt.ep).isNone evt rest)

inductive Move (b : Backend) (s : State n) : Label n → State n → Prop
  | stutter (l : Label n) : Move b s l s
  | nullContext (ep : ℕ) (call : AsyncCall) :
    Move b s (.async ep call) { s with failed := s.failed ++ ["ctx != 0"] }
  | turn (l : Label n) (w : Fin n) (pc : Pc) (h : Turn s (s.worker w) pc) :
    Move b s l (s.setWorker w pc)
  | waitFails (w : Fin n) (cnt : ℕ) (h : s.worker w = .waiting cnt) :
    Move b s (.wait w none)
      { s.setWorker w .idle with failed := s.failed ++ ["Failed on calling epoll_wait"] }
  | join (status : EStatus) (h : status.Settled) :
    Move b s (.join status) (s.openSocket status)
  | async (ep : ℕ) (call : AsyncCall) (ctx : AsyncContext) (h : s.context ep = some ctx) :
    Move b s (.async ep call) (s.submit ep ctx call)
  | popCompletion (w : Fin n) (co : Overlapped) (rest : List Overlapped) (h : s.worker w = .idle)
      (hlist : s.mCompletionList = co :: rest) :
    Move b s (.popCompletion w)
      { s.setWorker w .polled with mCompletionList := rest, popped := s.popped ++ [co] }
  | popReady (w : Fin n) (ep : ℕ) (rest : List ℕ) (h : s.worker w = .polled)
      (hlist : s.mReadyList = ep :: rest) :
    Move b s (.popReady w) { s.setWorker w (.popped ep rest.length) with mReadyList := rest }
  | ready (w : Fin n) (results : ℕ → IoResult) (ep cnt : ℕ) (ctx : AsyncContext)
      (h : s.worker w = .fetched ep cnt) (hctx : s.context ep = some ctx) :
    Move b s (.processReady w results) ((s.ready b ep ctx results).setWorker w (.waiting cnt))
  | wait (w : Fin n) (evts : List Event) (cnt : ℕ) (socket : ℕ → Socket)
      (h : s.worker w = .waiting cnt) (hharvest : harvest b s.socket evts = some socket) :
    Move b s (.wait w (some evts)) { s.setWorker w (State.afterEvents evts) with socket := socket }
  | handle (w : Fin n) (evt : Event) (rest : List Event) (ctx : AsyncContext)
      (h : s.worker w = .holding false evt rest) (hctx : s.context evt.ep = some ctx) :
    Move b s (.processEvent w) ((s.handle b evt ctx).setWorker w (State.afterEvents rest))
  | settle (ep : ℕ) (success : Bool) (h : (s.descriptor ep).connection = .inProgress) :
    Move b s (.settle ep success)
      (s.setDescriptor ep
        { s.descriptor ep with connection := if success then .established else .failed })
  | departKernel (ep : ℕ) :
    Move b s (.departKernel ep) (s.departKernel b ep)
  | departNull (ep : ℕ) (h : s.context ep = none) :
    Move b s (.departContext ep)
      { s with
        departing := Function.update s.departing ep none
        departed := s.departed ++ [(ep, false)]
        failed := s.failed ++ ["ctx != 0"] }
  | departContext (ep : ℕ) (removed : Bool) (ctx : AsyncContext) (h : s.departing ep = some removed)
      (hctx : s.context ep = some ctx) :
    Move b s (.departContext ep)
      { s.setContext ep none with
        mReadyList := if ctx.ready then s.mReadyList.erase ep else s.mReadyList
        departing := Function.update s.departing ep none
        departed := s.departed ++ [(ep, removed)] }

theorem step_move {l : Label n} (h : step b s l = .ok t) : Move b s l t := by
  cases l with
  | join status =>
    simp only [step, State.join, Except.ok.injEq] at h
    split at h
    · exact h ▸ .stutter _
    · next hstatus => exact h ▸ .join status (not_or.mp hstatus)
  | async ep call =>
    simp only [step, State.async, Except.ok.injEq] at h
    split at h
    · exact h ▸ .nullContext ep call
    · next ctx hctx => exact h ▸ .async ep call ctx hctx
  | popCompletion w =>
    simp only [step, State.popCompletion, Except.ok.injEq] at h
    split at h
    · next hpc hlist => exact h ▸ .turn _ w _ (hpc ▸ .noCompletion hlist)
    · next co rest hpc hlist => exact h ▸ .popCompletion w co rest hpc hlist
    · exact h ▸ .stutter _
  | popReady w =>
    simp only [step, State.popReady, Except.ok.injEq] at h
    split at h
    · next hpc hlist => exact h ▸ .turn _ w _ (hpc ▸ .noReady hlist)
    · next ep rest hpc hlist => exact h ▸ .popReady w ep rest hpc hlist
    · exact h ▸ .stutter _
  | getContext w =>
    simp only [step, State.getContext, Except.ok.injEq] at h
    split at h
    · next ep cnt hpc =>
      split at h
      · next hctx => exact h ▸ .turn _ w _ (hpc ▸ .contextNull hctx)
      · next hctx => exact h ▸ .turn _ w _ (hpc ▸ .contextRead hctx)
    · exact h ▸ .stutter _
  | processReady w results =>
    simp only [step, State.processReady] at h
    split at h
    · next ep cnt hpc =>
      split at h
      · cases h
      · next ctx hctx => exact Except.ok.inj h ▸ .ready w results ep cnt ctx hpc hctx
    · exact Except.ok.inj h ▸ .stutter _
  | wait w evts =>
    simp only [step, State.wait, Except.ok.injEq] at h
    split at h
    · next cnt hpc =>
      split at h
      · split at h
        · exact h ▸ .waitFails w cnt hpc
        · next evts =>
          split at h
          · next socket hharvest =>
            split at h
            · exact h ▸ .wait w evts cnt socket hpc hharvest
            · exact h ▸ .stutter _
          · exact h ▸ .stutter _
      · next hcnt => exact h ▸ .turn _ w _ (hpc ▸ .noWait hcnt)
    · exact h ▸ .stutter _
  | getEventContext w =>
    simp only [step, State.getEventContext, Except.ok.injEq] at h
    split at h
    · next evt rest hpc => exact h ▸ .turn _ w _ (hpc ▸ .eventContext)
    · exact h ▸ .stutter _
  | processEvent w =>
    simp only [step, State.processEvent] at h
    split at h
    · cases h
    · next evt rest hpc =>
      split at h
      · cases h
      · next ctx hctx => exact Except.ok.inj h ▸ .handle w evt rest ctx hpc hctx
    · exact Except.ok.inj h ▸ .stutter _
  | settle ep success =>
    simp only [step, State.settle, Except.ok.injEq] at h
    split at h
    · next hconn => exact h ▸ .settle ep success hconn
    · exact h ▸ .stutter _
  | departKernel ep =>
    simp only [step, Except.ok.injEq] at h
    exact h ▸ .departKernel ep
  | departContext ep =>
    simp only [step, State.departContext, Except.ok.injEq] at h
    split at h
    · exact h ▸ .stutter _
    · next removed hdeparting =>
      split at h
      · next hctx => exact h ▸ .departNull ep hctx
      · next ctx hctx => exact h ▸ .departContext ep removed ctx hdeparting hctx

end LibXpf.NetIoMux
