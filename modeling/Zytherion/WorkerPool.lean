import Zytherion.GoCall
import Zytherion.Application
import Mathlib.Logic.Function.Basic

/-!
# The pool of TFHE workers

Callers put jobs into a channel with room for `capacity` of them, workers take them out,
one at a time, and each job carries a channel with room for one value on which its caller
waits for the result. An interleaving is a list of actions; one that is not possible when
its turn comes is skipped.

A function may return any error value, nil among them. It may also panic, which ends the
process, or end the goroutine it runs on; in both cases its caller never returns. A call on
a pool that was not initialised gets an error at once and its function is not run, although
the comment of `Submit` speaks of direct execution; such a call never enters a pool.
-/
namespace Zytherion.WorkerPool

open GoCall Application

/-! The size of the pool. -/

def workerCount (size numCPU : ℤ) : ℤ :=
  if size ≤ 0 then if numCPU - 2 < 1 then 1 else numCPU - 2 else size

/-- The pool of the process is known by its size. `sync.Once` lets the first call make it;
a panic while it is made ends the process here. -/
def initWorkerPool (serverKey : List UInt8) (size numCPU : ℤ) :
    Call (Option ℤ) Err (Option ℤ) := do
  require (serverKey.length != 0)
    (.plain "tfhe: InitWorkerPool requires a non-empty server key")
  let pool ← gets id
  if pool.isNone then
    -- a `sync.WaitGroup` counts in 32 bits
    panicUnless (decide (0 ≤ (BitVec.ofInt 32 (workerCount size numCPU)).toInt))
      "sync: negative WaitGroup counter"
    modifyStore fun _ => some (workerCount size numCPU)
  gets id

theorem workerCount_pos (size numCPU : ℤ) : 1 ≤ workerCount size numCPU := by
  unfold workerCount
  split_ifs <;> omega

/-- Every pool that is handed out has a worker. -/
theorem initWorkerPool_pos {serverKey : List UInt8} {size numCPU : ℤ} {s t p : Option ℤ}
    (hs : ∀ n ∈ s, 1 ≤ n) (h : initWorkerPool serverKey size numCPU s = .ok p t) :
    p = t ∧ ∃ n, p = some n ∧ 1 ≤ n := by
  have hpos := workerCount_pos size numCPU
  cases s with
  | none =>
      have h' : some (workerCount size numCPU) = p ∧ some (workerCount size numCPU) = t := by
        simp [initWorkerPool] at h
        exact h.2.2
      exact ⟨h'.1.symm.trans h'.2, _, h'.1.symm, hpos⟩
  | some n =>
      have h' : some n = p ∧ some n = t := by
        simp [initWorkerPool] at h
        exact h.2
      exact ⟨h'.1.symm.trans h'.2, n, h'.1.symm, hs n rfl⟩

/-! A running pool, with workers `W`, calls `C` and error values `E`. -/

/-- Where a caller is in `Submit`. -/
inductive Caller (E : Type) where
  | outside
  | sending
  | waiting
  | returned (e : E)

/-- Where a worker is in `runWorker`. -/
inductive Worker (C E : Type) where
  | starting
  | idle
  | running (c : C)
  | replying (c : C) (e : E)
  | gone

/-- What happens to the functions of the calls. -/
inductive Event (W C E : Type) where
  | began (w : W) (c : C)
  | ended (w : W) (c : C) (e : E)
  | aborted (w : W) (c : C)

structure Pool (W C E : Type) where
  caller : C → Caller E
  jobs : List C
  worker : W → Worker C E
  result : C → Option E
  history : List (Event W C E)
  crashed : Bool

inductive Action (W C E : Type) where
  | start (w : W)
  | submit (c : C)
  | enqueue (c : C)
  | dequeue (w : W)
  | handOver (c : C) (w : W)
  | finish (w : W) (e : E)
  | goexit (w : W)
  | panic (w : W)
  | reply (w : W)
  | receive (c : C)

section Steps
variable {W C E : Type} [DecidableEq W] [DecidableEq C]

namespace Pool

def setCaller (s : Pool W C E) (c : C) (x : Caller E) : Pool W C E :=
  { s with caller := Function.update s.caller c x }

def setResult (s : Pool W C E) (c : C) (x : Option E) : Pool W C E :=
  { s with result := Function.update s.result c x }

/-- A worker moves on, and something may happen to a function. -/
def setWorker (s : Pool W C E) (w : W) (x : Worker C E) (events : List (Event W C E)) :
    Pool W C E :=
  { s with worker := Function.update s.worker w x, history := s.history ++ events }

def setJobs (s : Pool W C E) (jobs : List C) : Pool W C E := { s with jobs := jobs }

def crash (s : Pool W C E) : Pool W C E := { s with crashed := true }

/-- A worker that has received a job calls its function. -/
def begin (s : Pool W C E) (w : W) (c : C) : Pool W C E :=
  s.setWorker w (.running c) [.began w c]

end Pool

/-- The start of `Submit`, on the pool that the caller has or on nil. -/
def submit (pool : Option (Pool W C E)) (c : C) : Except Err (Pool W C E) :=
  match pool with
  | none => .error (.plain "tfhe: worker pool is nil — call InitWorkerPool first")
  | some s => .ok (s.setCaller c .sending)

/-- One action, if it is possible. A sender may hand its job to a worker that waits while
nothing is queued; that is the only way without room in the channel. -/
def step (capacity : ℕ) (s : Pool W C E) : Action W C E → Option (Pool W C E)
  | .start w =>
      match s.worker w with
      | .starting => some (s.setWorker w .idle [])
      | _ => none
  | .submit c =>
      match s.caller c with
      | .outside => (submit (some s) c).toOption
      | _ => none
  | .enqueue c =>
      match s.caller c with
      | .sending =>
          if s.jobs.length < capacity then
            some ((s.setCaller c .waiting).setJobs (s.jobs ++ [c]))
          else none
      | _ => none
  | .dequeue w =>
      match s.worker w, s.jobs with
      | .idle, c :: rest => some ((s.setJobs rest).begin w c)
      | _, _ => none
  | .handOver c w =>
      match s.caller c, s.worker w, s.jobs with
      | .sending, .idle, [] => some ((s.setCaller c .waiting).begin w c)
      | _, _, _ => none
  | .finish w e =>
      match s.worker w with
      | .running c => some (s.setWorker w (.replying c e) [.ended w c e])
      | _ => none
  | .goexit w =>
      match s.worker w with
      | .running c => some (s.setWorker w .gone [.aborted w c])
      | _ => none
  | .panic w =>
      match s.worker w with
      | .running c => some (s.setWorker w .gone [.aborted w c]).crash
      | _ => none
  | .reply w =>
      match s.worker w with
      | .replying c e =>
          match s.result c with
          | none => some ((s.setResult c (some e)).setWorker w .idle [])
          | some _ => none
      | _ => none
  | .receive c =>
      match s.caller c, s.result c with
      | .waiting, some e => some ((s.setResult c none).setCaller c (.returned e))
      | _, _ => none

def advance (capacity : ℕ) (s : Pool W C E) (a : Action W C E) : Pool W C E :=
  if s.crashed then s else (step capacity s a).getD s

/-- A pool whose workers have been started. The source also waits for all of them to be
ready before anyone gets the pool; here calls may come earlier. -/
def initial : Pool W C E := ⟨fun _ => .outside, [], fun _ => .starting, fun _ => none, [], false⟩

def after (capacity : ℕ) (schedule : List (Action W C E)) : Pool W C E :=
  run (advance capacity) initial schedule


/-! What a step can do. -/

inductive Moves (capacity : ℕ) (s : Pool W C E) : Pool W C E → Prop
  | start (w : W) : s.worker w = .starting → Moves capacity s (s.setWorker w .idle [])
  | submit (c : C) : s.caller c = .outside → Moves capacity s (s.setCaller c .sending)
  | enqueue (c : C) : s.caller c = .sending → s.jobs.length < capacity →
      Moves capacity s ((s.setCaller c .waiting).setJobs (s.jobs ++ [c]))
  | dequeue (w : W) (c : C) (rest : List C) : s.worker w = .idle → s.jobs = c :: rest →
      Moves capacity s ((s.setJobs rest).begin w c)
  | handOver (c : C) (w : W) : s.caller c = .sending → s.worker w = .idle → s.jobs = [] →
      Moves capacity s ((s.setCaller c .waiting).begin w c)
  | finish (w : W) (c : C) (e : E) : s.worker w = .running c →
      Moves capacity s (s.setWorker w (.replying c e) [.ended w c e])
  | goexit (w : W) (c : C) : s.worker w = .running c →
      Moves capacity s (s.setWorker w .gone [.aborted w c])
  | panic (w : W) (c : C) : s.worker w = .running c →
      Moves capacity s (s.setWorker w .gone [.aborted w c]).crash
  | reply (w : W) (c : C) (e : E) : s.worker w = .replying c e → s.result c = none →
      Moves capacity s ((s.setResult c (some e)).setWorker w .idle [])
  | receive (c : C) (e : E) : s.caller c = .waiting → s.result c = some e →
      Moves capacity s ((s.setResult c none).setCaller c (.returned e))

theorem step_moves {capacity : ℕ} {s t : Pool W C E} {a : Action W C E}
    (h : step capacity s a = some t) : Moves capacity s t := by
  cases a with
  | start w =>
      cases hw : s.worker w <;> simp only [step, hw, reduceCtorEq, Option.some.injEq] at h
      exact h ▸ .start w hw
  | submit c =>
      cases hc : s.caller c <;> simp only [step, hc, reduceCtorEq] at h
      cases h
      exact .submit c hc
  | enqueue c =>
      cases hc : s.caller c <;> simp only [step, hc, reduceCtorEq] at h
      split at h
      · cases h
        exact .enqueue c hc ‹_›
      · cases h
  | dequeue w =>
      cases hw : s.worker w <;> cases hj : s.jobs <;>
        simp only [step, hw, hj, reduceCtorEq, Option.some.injEq] at h
      exact h ▸ .dequeue w _ _ hw hj
  | handOver c w =>
      cases hc : s.caller c <;> cases hw : s.worker w <;> cases hj : s.jobs <;>
        simp only [step, hc, hw, hj, reduceCtorEq, Option.some.injEq] at h
      exact h ▸ .handOver c w hc hw hj
  | finish w e =>
      cases hw : s.worker w <;> simp only [step, hw, reduceCtorEq, Option.some.injEq] at h
      exact h ▸ .finish w _ e hw
  | goexit w =>
      cases hw : s.worker w <;> simp only [step, hw, reduceCtorEq, Option.some.injEq] at h
      exact h ▸ .goexit w _ hw
  | panic w =>
      cases hw : s.worker w <;> simp only [step, hw, reduceCtorEq, Option.some.injEq] at h
      exact h ▸ .panic w _ hw
  | reply w =>
      cases hw : s.worker w <;> simp only [step, hw, reduceCtorEq] at h
      split at h
      · cases h
        exact .reply w _ _ hw ‹_›
      · cases h
  | receive c =>
      cases hc : s.caller c <;> cases hr : s.result c <;>
        simp only [step, hc, hr, reduceCtorEq, Option.some.injEq] at h
      exact h ▸ .receive c _ hc hr

/-! The history of one call and of one worker. -/

def Event.call : Event W C E → C
  | .began _ c | .ended _ c _ | .aborted _ c => c

def Event.worker : Event W C E → W
  | .began w _ | .ended w _ _ | .aborted w _ => w

def Event.begins : Event W C E → Bool
  | .began _ _ => true
  | _ => false

/-- What happened to the function of a call. -/
def trace (c : C) (history : List (Event W C E)) : List (Event W C E) :=
  history.filter fun ev => ev.call = c

/-- How often the function of a call was run. -/
def runs (c : C) (history : List (Event W C E)) : ℕ := (trace c history).countP Event.begins

def follow (w : W) (fs : List C) : Event W C E → List C
  | .began v c => if v = w then c :: fs else fs
  | .ended v c _ | .aborted v c => if v = w then fs.erase c else fs

/-- The calls whose functions have begun on a worker and have not come to an end. -/
def active (w : W) (history : List (Event W C E)) : List C := history.foldl (follow w) []

/-! One call, whatever the others do. -/

/-- The part of the pool that concerns one call. For a worker it says whether the worker has
the call's job, and the value it is about to send. -/
@[ext]
structure View (W C E : Type) where
  caller : Caller E
  queued : Bool
  worker : W → Option (Option E)
  result : Option E
  events : List (Event W C E)

def Worker.onCall (d : C) : Worker C E → Option (Option E)
  | .running c => if c = d then some none else none
  | .replying c e => if c = d then some (some e) else none
  | _ => none

def Pool.view (s : Pool W C E) (d : C) : View W C E :=
  ⟨s.caller d, decide (d ∈ s.jobs), fun v => (s.worker v).onCall d, s.result d,
    trace d s.history⟩

/-- The stations of a call. -/
inductive Phase (W E : Type) where
  | outside
  | sending
  | queued
  | running (w : W)
  | replying (w : W) (e : E)
  | answered (w : W) (e : E)
  | returned (w : W) (e : E)
  | lost (w : W)

/-- What the pool looks like to a call at each station: its job is in one place, and its
function has been begun only once a worker had the job. -/
def Phase.view (c : C) : Phase W E → View W C E
  | .outside => ⟨.outside, false, fun _ => none, none, []⟩
  | .sending => ⟨.sending, false, fun _ => none, none, []⟩
  | .queued => ⟨.waiting, true, fun _ => none, none, []⟩
  | .running w => ⟨.waiting, false, Function.update (fun _ => none) w (some none), none,
      [.began w c]⟩
  | .replying w e => ⟨.waiting, false, Function.update (fun _ => none) w (some (some e)), none,
      [.began w c, .ended w c e]⟩
  | .answered w e => ⟨.waiting, false, fun _ => none, some e, [.began w c, .ended w c e]⟩
  | .returned w e => ⟨.returned e, false, fun _ => none, none, [.began w c, .ended w c e]⟩
  | .lost w => ⟨.waiting, false, fun _ => none, none, [.began w c, .aborted w c]⟩

end Steps

/-- At every station the function has been begun at most once. -/
theorem Phase.view_begins {W C E : Type} [DecidableEq W] (p : Phase W E) (c : C) :
    (p.view c).events.countP Event.begins ≤ 1 := by
  cases p <;> simp [Phase.view, List.countP_cons, Event.begins]

/-! What a change of the pool is to a call. -/

section Views
variable {W C E : Type} [DecidableEq C] (s : Pool W C E) (c d : C)

theorem view_setCaller (x : Caller E) : (s.setCaller c x).view d =
    if d = c then { s.view d with caller := x } else s.view d := by
  split_ifs with hd
  · exact View.ext (by simp [Pool.view, Pool.setCaller, hd]) rfl rfl rfl rfl
  · exact View.ext (by simp [Pool.view, Pool.setCaller, hd]) rfl rfl rfl rfl

theorem view_setResult (x : Option E) : (s.setResult c x).view d =
    if d = c then { s.view d with result := x } else s.view d := by
  split_ifs with hd
  · exact View.ext rfl rfl rfl (by simp [Pool.view, Pool.setResult, hd]) rfl
  · exact View.ext rfl rfl rfl (by simp [Pool.view, Pool.setResult, hd]) rfl

theorem view_setJobs (jobs : List C) :
    (s.setJobs jobs).view d = { s.view d with queued := decide (d ∈ jobs) } := rfl

variable [DecidableEq W] (w : W)

theorem view_setWorker (x : Worker C E) (events : List (Event W C E)) :
    (s.setWorker w x events).view d =
      { s.view d with
        worker := Function.update (s.view d).worker w (x.onCall d)
        events := (s.view d).events ++ trace d events } := by
  ext1
  case worker =>
    funext v
    by_cases hv : v = w
    · subst hv
      simp [Pool.view, Pool.setWorker]
    · simp [Pool.view, Pool.setWorker, hv]
  case events => simp [Pool.view, Pool.setWorker, trace]
  all_goals rfl

/-- A worker that has nothing to do with a call, before and after, changes nothing for it. -/
theorem view_setWorker_other {x : Worker C E} {events : List (Event W C E)}
    (hw : (s.worker w).onCall d = none) (hx : x.onCall d = none)
    (hev : ∀ ev ∈ events, ev.call ≠ d) : (s.setWorker w x events).view d = s.view d := by
  have htrace : trace d events = [] := by simpa [trace] using hev
  have hsame : Function.update (s.view d).worker w none = (s.view d).worker := by
    rw [Function.update_eq_self_iff]
    exact hw.symm
  rw [view_setWorker, htrace, hx, hsame, List.append_nil]

end Views

/-! Every call is at a station, and a step moves one call on. -/

section Tracking
variable {W C E : Type} [DecidableEq W] [DecidableEq C] {s : Pool W C E} {φ : C → Phase W E}
  {c : C} {w : W} {e : E}

structure Tracked (s : Pool W C E) (φ : C → Phase W E) : Prop where
  nodup : s.jobs.Nodup
  view : ∀ d, s.view d = (φ d).view d

namespace Tracked

/-- It is enough to look at the call that moves. -/
theorem move {t : Pool W C E} {p : Phase W E} (h : Tracked s φ) (hn : t.jobs.Nodup)
    (hc : t.view c = p.view c) (hd : ∀ d, d ≠ c → t.view d = s.view d) :
    Tracked t (Function.update φ c p) := by
  refine ⟨hn, fun d => ?_⟩
  by_cases hdc : d = c
  · subst hdc
    rw [hc, Function.update_self]
  · rw [hd d hdc, h.view d, Function.update_of_ne hdc]

/-! The station of a call is known from one component of its view. -/

theorem outside (h : Tracked s φ) (hc : s.caller c = .outside) : φ c = .outside := by
  have hview : ((φ c).view c).caller = .outside := h.view c ▸ hc
  revert hview
  cases φ c <;> simp [Phase.view]

theorem sending (h : Tracked s φ) (hc : s.caller c = .sending) : φ c = .sending := by
  have hview : ((φ c).view c).caller = .sending := h.view c ▸ hc
  revert hview
  cases φ c <;> simp [Phase.view]

theorem returned (h : Tracked s φ) (hc : s.caller c = .returned e) :
    ∃ w, φ c = .returned w e := by
  have hview : ((φ c).view c).caller = .returned e := h.view c ▸ hc
  revert hview
  cases φ c <;> simp [Phase.view]

theorem queued (h : Tracked s φ) (hc : c ∈ s.jobs) : φ c = .queued := by
  have hview : ((φ c).view c).queued = true := h.view c ▸ decide_eq_true hc
  revert hview
  cases φ c <;> simp [Phase.view]

theorem answered (h : Tracked s φ) (hr : s.result c = some e) : ∃ w, φ c = .answered w e := by
  have hview : ((φ c).view c).result = some e := h.view c ▸ hr
  revert hview
  cases φ c <;> simp [Phase.view]

/-- A worker that has a job says at which station its call is. -/
theorem onCall (h : Tracked s φ) : (s.worker w).onCall c = ((φ c).view c).worker w :=
  congrFun (congrArg View.worker (h.view c)) w

theorem running (h : Tracked s φ) (hw : s.worker w = .running c) : φ c = .running w := by
  have hview : some none = ((φ c).view c).worker w := by
    rw [← h.onCall, hw, Worker.onCall, if_pos rfl]
  revert hview
  cases φ c <;> simp [Phase.view, Function.update_apply, eq_comm]

theorem replying (h : Tracked s φ) (hw : s.worker w = .replying c e) :
    φ c = .replying w e := by
  have hview : some (some e) = ((φ c).view c).worker w := by
    rw [← h.onCall, hw, Worker.onCall, if_pos rfl]
  revert hview
  cases φ c <;> simp [Phase.view, Function.update_apply, eq_comm]

theorem begin_other {d : C} (hw : s.worker w = .idle) (hd : d ≠ c) :
    (s.begin w c).view d = s.view d := by
  apply view_setWorker_other
  · rw [hw]
    rfl
  · exact if_neg hd.symm
  · simpa [Event.call] using hd.symm

/-- The caller waits, the job is nowhere yet, and a worker gets it. -/
theorem begin_self (hc : s.view c = ⟨.waiting, false, fun _ => none, none, []⟩) :
    (s.begin w c).view c = (Phase.running w).view c := by
  rw [Pool.begin, view_setWorker, hc]
  simp [Phase.view, Worker.onCall, trace, Event.call]

/-- The function comes to an end and the worker keeps at most the job of the same call. -/
theorem ends_other {x : Worker C E} {ev : Event W C E} {d : C} (hw : s.worker w = .running c)
    (hx : x.onCall d = none) (hev : ev.call = c) (hd : d ≠ c) :
    (s.setWorker w x [ev]).view d = s.view d := by
  apply view_setWorker_other
  · rw [hw, Worker.onCall, if_neg hd.symm]
  · exact hx
  · simpa [hev] using hd.symm

theorem finish (h : Tracked s φ) (hw : s.worker w = .running c) :
    Tracked (s.setWorker w (.replying c e) [.ended w c e])
      (Function.update φ c (.replying w e)) := by
  apply h.move
  · exact h.nodup
  · rw [view_setWorker, h.view, h.running hw]
    simp [Phase.view, Worker.onCall, trace, Event.call]
  · intro d hd
    exact ends_other hw (if_neg hd.symm) rfl hd

theorem abort (h : Tracked s φ) (hw : s.worker w = .running c) :
    Tracked (s.setWorker w .gone [.aborted w c]) (Function.update φ c (.lost w)) := by
  apply h.move
  · exact h.nodup
  · rw [view_setWorker, h.view, h.running hw]
    simp [Phase.view, Worker.onCall, trace, Event.call]
  · intro d hd
    exact ends_other hw rfl rfl hd

theorem reply (h : Tracked s φ) (hw : s.worker w = .replying c e) :
    Tracked ((s.setResult c (some e)).setWorker w .idle [])
      (Function.update φ c (.answered w e)) := by
  apply h.move
  · exact h.nodup
  · rw [view_setWorker, view_setResult, if_pos rfl, h.view, h.replying hw]
    simp [Phase.view, Worker.onCall, trace]
  · intro d hd
    rw [view_setWorker_other, view_setResult, if_neg hd]
    · change (s.worker w).onCall d = none
      rw [hw, Worker.onCall, if_neg hd.symm]
    · rfl
    · simp

theorem receive (h : Tracked s φ) (hr : s.result c = some e) :
    ∃ w, Tracked ((s.setResult c none).setCaller c (.returned e))
      (Function.update φ c (.returned w e)) := by
  obtain ⟨w, hφ⟩ := h.answered hr
  use w
  apply h.move
  · exact h.nodup
  · rw [view_setCaller, if_pos rfl, view_setResult, if_pos rfl, h.view, hφ]
    rfl
  · intro d hd
    rw [view_setCaller, if_neg hd, view_setResult, if_neg hd]

theorem enqueue (h : Tracked s φ) (hc : s.caller c = .sending) :
    Tracked ((s.setCaller c .waiting).setJobs (s.jobs ++ [c])) (Function.update φ c .queued) := by
  have hnew : c ∉ s.jobs := by
    intro hmem
    have hboth := (h.sending hc).symm.trans (h.queued hmem)
    cases hboth
  apply h.move
  · exact List.nodup_append.mpr ⟨h.nodup, List.nodup_singleton c, by grind⟩
  · rw [view_setJobs, view_setCaller, if_pos rfl, h.view, h.sending hc]
    simp [Phase.view]
  · intro d hd
    rw [view_setJobs, view_setCaller, if_neg hd]
    simp [Pool.view, hd]

theorem dequeue {rest : List C} (h : Tracked s φ) (hw : s.worker w = .idle)
    (hj : s.jobs = c :: rest) :
    Tracked ((s.setJobs rest).begin w c) (Function.update φ c (.running w)) := by
  have hn : c ∉ rest ∧ rest.Nodup := List.nodup_cons.mp (hj ▸ h.nodup)
  apply h.move
  · exact hn.2
  · apply begin_self
    rw [view_setJobs, h.view, h.queued (by simp [hj])]
    simp [Phase.view, hn.1]
  · intro d hd
    rw [begin_other (s := s.setJobs rest) hw hd, view_setJobs]
    simp [Pool.view, hj, hd]

theorem handOver (h : Tracked s φ) (hc : s.caller c = .sending) (hw : s.worker w = .idle) :
    Tracked ((s.setCaller c .waiting).begin w c) (Function.update φ c (.running w)) := by
  apply h.move
  · exact h.nodup
  · apply begin_self
    rw [view_setCaller, if_pos rfl, h.view, h.sending hc]
    rfl
  · intro d hd
    rw [begin_other (s := s.setCaller c .waiting) hw hd, view_setCaller, if_neg hd]

theorem moves {capacity : ℕ} {t : Pool W C E} (h : Tracked s φ) (m : Moves capacity s t) :
    ∃ ψ, Tracked t ψ := by
  cases m with
  | start w hw =>
      refine ⟨φ, h.nodup, fun d => ?_⟩
      rw [view_setWorker_other s d w (by rw [hw]; rfl) rfl (by simp), h.view]
  | submit c hc =>
      refine ⟨_, h.move (c := c) (p := .sending) h.nodup ?_ fun d hd => ?_⟩
      · rw [view_setCaller, if_pos rfl, h.view, h.outside hc]
        rfl
      · rw [view_setCaller, if_neg hd]
  | enqueue c hc _ => exact ⟨_, h.enqueue hc⟩
  | dequeue w c rest hw hj => exact ⟨_, h.dequeue hw hj⟩
  | handOver c w hc hw _ => exact ⟨_, h.handOver hc hw⟩
  | finish w c e hw => exact ⟨_, h.finish hw⟩
  | goexit w c hw => exact ⟨_, h.abort hw⟩
  | panic w c hw =>
      -- the crash itself concerns no call
      have ht := h.abort hw
      exact ⟨_, ht.nodup, ht.view⟩
  | reply w c e hw _ => exact ⟨_, h.reply hw⟩
  | receive c e _ hr =>
      obtain ⟨w, ht⟩ := h.receive hr
      exact ⟨_, ht⟩

end Tracked

end Tracking

/-! One worker, whatever the others do. -/

section Busy
variable {W C E : Type} [DecidableEq W] [DecidableEq C] {s : Pool W C E} {c : C} {w : W}

def Worker.functions : Worker C E → List C
  | .running c => [c]
  | _ => []

/-- The history agrees with what the workers do, now and at every earlier moment. -/
structure Busy (s : Pool W C E) : Prop where
  now : ∀ w, active w s.history = (s.worker w).functions
  ever : ∀ w, ∀ h, h <+: s.history → (active w h).length ≤ 1

omit [DecidableEq W] [DecidableEq C] in
theorem Worker.functions_length (x : Worker C E) : x.functions.length ≤ 1 := by
  cases x <;> simp [Worker.functions]

theorem follow_other {v : W} {ev : Event W C E} (hv : ev.worker ≠ v) (fs : List C) :
    follow v fs ev = fs := by
  cases ev <;> exact if_neg hv

namespace Busy

/-- A worker moves on without an event. -/
theorem quiet {x : Worker C E} (h : Busy s) (hx : (s.worker w).functions = x.functions) :
    Busy (s.setWorker w x []) := by
  refine ⟨fun v => ?_, ?_⟩
  · by_cases hv : v = w
    · subst hv
      simpa [Pool.setWorker, hx] using h.now v
    · simpa [Pool.setWorker, hv] using h.now v
  · simpa [Pool.setWorker] using h.ever

theorem event {x : Worker C E} {ev : Event W C E} (h : Busy s) (hev : ev.worker = w)
    (hx : follow w (s.worker w).functions ev = x.functions) : Busy (s.setWorker w x [ev]) := by
  have hnow : ∀ v, active v (s.history ++ [ev]) =
      (Function.update s.worker w x v).functions := by
    intro v
    have hsnoc : active v (s.history ++ [ev]) = follow v (active v s.history) ev := by
      simp only [active, List.foldl_append, List.foldl_cons, List.foldl_nil]
    rw [hsnoc, h.now v]
    by_cases hv : v = w
    · subst hv
      rw [hx, Function.update_self]
    · rw [follow_other (by rw [hev]; exact Ne.symm hv), Function.update_of_ne hv]
  refine ⟨hnow, fun v k hk => ?_⟩
  rcases List.prefix_concat_iff.mp hk with rfl | hk
  · rw [hnow v]
    exact Worker.functions_length _
  · exact h.ever v k hk

theorem begin (h : Busy s) (hw : s.worker w = .idle) : Busy (s.begin w c) := by
  apply h.event
  · rfl
  · simp [hw, follow, Worker.functions]

theorem abort (h : Busy s) (hw : s.worker w = .running c) :
    Busy (s.setWorker w .gone [.aborted w c]) := by
  apply h.event
  · rfl
  · simp [hw, follow, Worker.functions]

/-- The workers and the history are all that counts. -/
theorem congr {t : Pool W C E} (h : Busy s) (hw : t.worker = s.worker)
    (hh : t.history = s.history) : Busy t := by
  refine ⟨?_, ?_⟩
  · rw [hw, hh]
    exact h.now
  · rw [hh]
    exact h.ever

theorem moves {capacity : ℕ} {t : Pool W C E} (h : Busy s) (m : Moves capacity s t) :
    Busy t := by
  cases m with
  | start w hw =>
      apply h.quiet
      rw [hw]
      rfl
  | submit c _ => exact h.congr rfl rfl
  | enqueue c _ _ => exact h.congr rfl rfl
  | dequeue w c rest hw _ =>
      apply Busy.begin
      · exact h.congr rfl rfl
      · exact hw
  | handOver c w _ hw _ =>
      apply Busy.begin
      · exact h.congr rfl rfl
      · exact hw
  | finish w c e hw =>
      apply h.event
      · rfl
      · simp [hw, follow, Worker.functions]
  | goexit w c hw => exact h.abort hw
  | panic w c hw => exact (h.abort hw).congr rfl rfl
  | reply w c e hw _ =>
      apply Busy.quiet
      · exact h.congr rfl rfl
      · change (s.worker w).functions = _
        rw [hw]
        rfl
  | receive c e _ _ => exact h.congr rfl rfl

end Busy

end Busy

/-! Whole interleavings. -/

section Interleavings
variable {W C E : Type} [DecidableEq W] [DecidableEq C]

theorem initial_tracked : Tracked (initial : Pool W C E) fun _ => .outside :=
  ⟨List.nodup_nil, fun _ => rfl⟩

theorem initial_busy : Busy (initial : Pool W C E) := by
  refine ⟨fun _ => rfl, fun w h hh => ?_⟩
  rw [List.prefix_nil.mp hh]
  exact Nat.zero_le 1

theorem advance_cases (capacity : ℕ) (s : Pool W C E) (a : Action W C E) :
    advance capacity s a = s ∨ Moves capacity s (advance capacity s a) := by
  unfold advance
  split_ifs with hs
  · exact .inl rfl
  · cases ht : step capacity s a with
    | none => exact .inl rfl
    | some t => exact .inr (step_moves ht)

theorem after_invariant (capacity : ℕ) (schedule : List (Action W C E)) :
    (∃ φ, Tracked (after capacity schedule) φ) ∧ Busy (after capacity schedule) := by
  apply run_invariant (fun s : Pool W C E => (∃ φ, Tracked s φ) ∧ Busy s) (fun _ => True)
  · rintro s a - ⟨⟨φ, hφ⟩, hb⟩
    rcases advance_cases capacity s a with hs | hm
    · rw [hs]
      exact ⟨⟨φ, hφ⟩, hb⟩
    · exact ⟨hφ.moves hm, hb.moves hm⟩
  · exact ⟨⟨_, initial_tracked⟩, initial_busy⟩
  · exact fun _ _ => trivial

/-- Whatever the number of workers and of calls, the room in the channel and the order in
which things happen: no function is run twice, a call of `Submit` that has returned had its
function begun and ended once, on one worker, and returned the value it ended with, and at
no moment have two functions begun on one worker without an end. -/
theorem submit_returns_own_result (capacity : ℕ) (schedule : List (Action W C E)) :
    (∀ c, runs c (after capacity schedule).history ≤ 1) ∧
      (∀ c e, (after capacity schedule).caller c = .returned e →
        ∃ w, trace c (after capacity schedule).history = [.began w c, .ended w c e]) ∧
      ∀ w, ∀ h, h <+: (after capacity schedule).history → (active w h).length ≤ 1 := by
  obtain ⟨⟨φ, hφ⟩, hb⟩ := after_invariant capacity schedule
  have hevents : ∀ c, trace c (after capacity schedule).history = ((φ c).view c).events :=
    fun c => congrArg View.events (hφ.view c)
  refine ⟨fun c => ?_, fun c e hc => ?_, hb.ever⟩
  · rw [runs, hevents c]
    exact Phase.view_begins _ c
  · obtain ⟨w, hw⟩ := hφ.returned hc
    refine ⟨w, ?_⟩
    rw [hevents c, hw]
    rfl

/-- Two workers and room for one job: the second call's job is taken later and done first,
and the third is handed to a worker that waits. -/
def rush : List (Action Bool ℕ ℕ) :=
  [.start true, .start false, .submit 0, .submit 1, .submit 2, .enqueue 0, .dequeue true,
    .enqueue 1, .enqueue 2, .dequeue false, .finish false 5, .reply false, .receive 1,
    .handOver 2 false, .finish true 7, .reply true, .receive 0]

theorem rush_returns :
    (after 1 rush).caller 0 = .returned 7 ∧ (after 1 rush).caller 1 = .returned 5 ∧
      (∃ w, trace 0 (after 1 rush).history = [.began w 0, .ended w 0 7]) ∧
      (∃ w, trace 1 (after 1 rush).history = [.began w 1, .ended w 1 5]) ∧
      (active false (after 1 rush).history).length ≤ 1 :=
  ⟨rfl, rfl, (submit_returns_own_result 1 rush).2.1 0 7 rfl,
    (submit_returns_own_result 1 rush).2.1 1 5 rfl,
    (submit_returns_own_result 1 rush).2.2 false _ List.prefix_rfl⟩

end Interleavings

end Zytherion.WorkerPool
