import Zytherion.ShardServer

/-!
# The rate limiter of the shard server

Every request passes a limiter before it reaches a handler. A client has a counter and
a time at which the counter starts again: the first request begins a window, and
requests are let past until the counter is full.

A client is what `RemoteAddr` says, address and port together, so that an IP has as many
counters as ports. One counter runs in fixed windows: what is let past at the end of one
window and at the beginning of the next lies in one interval that is no longer.
-/
namespace Zytherion.RateLimits

open GoCall KeyedStore ShardServer

/-- Times in nanoseconds. -/
structure RateBucket where
  count : ℤ
  resetAt : ℤ
deriving DecidableEq

structure ShardRateLimiter where
  clients : Store String RateBucket
  maxRequests : ℤ
  window : ℤ

def newShardRateLimiter (maxRequests window : ℤ) : ShardRateLimiter := ⟨∅, maxRequests, window⟩

namespace ShardRateLimiter

def setBucket (r : ShardRateLimiter) (key : String) (b : RateBucket) : ShardRateLimiter :=
  { r with clients := r.clients.set key b }

def allow (r : ShardRateLimiter) (now : ℤ) (key : String) : Bool × ShardRateLimiter :=
  match r.clients.get key with
  | none => (true, r.setBucket key ⟨1, now + r.window⟩)
  | some b =>
      if b.resetAt < now then (true, r.setBucket key ⟨1, now + r.window⟩)
      else if r.maxRequests ≤ b.count then (false, r)
      else (true, r.setBucket key ⟨b.count + 1, b.resetAt⟩)

end ShardRateLimiter

/-- A port has no colon, so that the last one divides the text. -/
structure RemoteAddr where
  ip : String
  port : String
  port_no_colon : ':' ∉ port.toList
deriving DecidableEq

def RemoteAddr.text (a : RemoteAddr) : String := a.ip ++ ":" ++ a.port

/-- What the limiter reads of a request. -/
structure Request where
  time : ℤ
  remoteAddr : RemoteAddr
deriving DecidableEq

def tooManyRequests : HttpError := ⟨"rate limit exceeded", 429⟩

/-- `Allow` on the limiter of a server with more state. -/
def askLimiter {σ : Type} (q : Request) : Call (ShardRateLimiter × σ) HttpError Bool := fun w =>
  .ok (w.1.allow q.time q.remoteAddr.text).1 ((w.1.allow q.time q.remoteAddr.text).2, w.2)

def rateLimitMiddleware {σ α : Type} (next : Request → Call σ HttpError α) (q : Request) :
    Call (ShardRateLimiter × σ) HttpError α := do
  let allowed ← askLimiter q
  require allowed tooManyRequests
  zoom Prod.snd (fun w t => (w.1, t)) (next q)

/-- A server that notes what reaches its handler. -/
abbrev Server : Type := ShardRateLimiter × List Request

def note (q : Request) : Call (List Request) HttpError Unit := modifyStore (· ++ [q])

/-- An answer with an error keeps what was written. -/
def serve (w : Server) (q : Request) : Server := ((rateLimitMiddleware note q w).left).getD w

def passed (maxRequests window : ℤ) (reqs : List Request) : List Request :=
  (run serve (newShardRateLimiter maxRequests window, []) reqs).2

/-- The requests of an IP that got past the limiter from `t` to `t'`. -/
def passedFrom (maxRequests window : ℤ) (reqs : List Request) (ip : String) (t t' : ℤ) : ℕ :=
  (passed maxRequests window reqs).countP fun q =>
    decide (q.remoteAddr.ip = ip ∧ t ≤ q.time ∧ q.time ≤ t')

/-- The limit on each IP, for requests from the addresses in `P`. -/
def Limits (P : Set RemoteAddr) (maxRequests window : ℤ) : Prop :=
  ∀ reqs : List Request, (∀ q ∈ reqs, q.remoteAddr ∈ P) →
    reqs.Pairwise (fun p q => p.time ≤ q.time) →
    ∀ ip t t', t ≤ t' → t' - t ≤ window →
      (passedFrom maxRequests window reqs ip t t' : ℤ) ≤ maxRequests

/-! The text of an address has one reading. -/

theorem no_longer_before {x y u v : List Char} (hu : ':' ∉ u) {l : List Char}
    (hy : y = x ++ l) (h : ':' :: u = l ++ ':' :: v) : x = y ∧ u = v := by
  cases l with
  | nil =>
      rw [List.append_nil] at hy
      exact ⟨hy.symm, (List.cons.inj h).2⟩
  | cons c l =>
      have htail : u = l ++ ':' :: v := (List.cons.inj h).2
      exact (hu (htail ▸ by simp)).elim

theorem RemoteAddr.text_inj {a b : RemoteAddr} (h : a.text = b.text) : a = b := by
  have hlists : a.ip.toList ++ ':' :: a.port.toList = b.ip.toList ++ ':' :: b.port.toList := by
    have := congrArg String.toList h
    simpa [RemoteAddr.text] using this
  have hparts : a.ip.toList = b.ip.toList ∧ a.port.toList = b.port.toList := by
    rcases List.append_eq_append_iff.mp hlists with ⟨l, hip, hport⟩ | ⟨l, hip, hport⟩
    · exact no_longer_before a.port_no_colon hip hport
    · obtain ⟨hip, hport⟩ := no_longer_before b.port_no_colon hip hport
      exact ⟨hip.symm, hport.symm⟩
  obtain ⟨ip, port, _⟩ := a
  obtain ⟨ip', port', _⟩ := b
  obtain rfl := String.toList_inj.mp hparts.1
  obtain rfl := String.toList_inj.mp hparts.2
  rfl

/-! One request. -/

theorem serve_eq (w : Server) (q : Request) :
    serve w q = ((w.1.allow q.time q.remoteAddr.text).2,
      if (w.1.allow q.time q.remoteAddr.text).1 then w.2 ++ [q] else w.2) := by
  have hask : askLimiter q w = .ok (w.1.allow q.time q.remoteAddr.text).1
    ((w.1.allow q.time q.remoteAddr.text).2, w.2) := rfl
  rw [serve, rateLimitMiddleware, bind_of_ok hask]
  cases (w.1.allow q.time q.remoteAddr.text).1 <;> rfl

section Step
variable {w : Server} {q : Request}

/-- A window begins. -/
theorem serve_begins (h : ∀ b, w.1.clients.get q.remoteAddr.text = some b → b.resetAt < q.time) :
    serve w q = (w.1.setBucket q.remoteAddr.text ⟨1, q.time + w.1.window⟩, w.2 ++ [q]) := by
  rw [serve_eq, ShardRateLimiter.allow]
  cases hb : w.1.clients.get q.remoteAddr.text with
  | none => rfl
  | some b => simp [h b hb]

/-- The counter of a running window goes up. -/
theorem serve_counts {b : RateBucket} (hb : w.1.clients.get q.remoteAddr.text = some b)
    (hruns : q.time ≤ b.resetAt) (hroom : b.count < w.1.maxRequests) :
    serve w q = (w.1.setBucket q.remoteAddr.text ⟨b.count + 1, b.resetAt⟩, w.2 ++ [q]) := by
  rw [serve_eq, ShardRateLimiter.allow, hb]
  simp [not_lt.mpr hruns, not_le.mpr hroom]

/-- The counter is full. -/
theorem serve_refuses {b : RateBucket} (hb : w.1.clients.get q.remoteAddr.text = some b)
    (hruns : q.time ≤ b.resetAt) (hfull : w.1.maxRequests ≤ b.count) : serve w q = w := by
  rw [serve_eq, ShardRateLimiter.allow, hb]
  simp [not_lt.mpr hruns, hfull]

/-- Everything a request can do. -/
theorem serve_cases (w : Server) (q : Request) :
    ((∀ b, w.1.clients.get q.remoteAddr.text = some b → b.resetAt < q.time) ∧
      serve w q = (w.1.setBucket q.remoteAddr.text ⟨1, q.time + w.1.window⟩, w.2 ++ [q])) ∨
    ∃ b, w.1.clients.get q.remoteAddr.text = some b ∧ q.time ≤ b.resetAt ∧
      (b.count < w.1.maxRequests ∧
        serve w q = (w.1.setBucket q.remoteAddr.text ⟨b.count + 1, b.resetAt⟩, w.2 ++ [q]) ∨
      w.1.maxRequests ≤ b.count ∧ serve w q = w) := by
  by_cases hstale : ∀ b, w.1.clients.get q.remoteAddr.text = some b → b.resetAt < q.time
  · exact .inl ⟨hstale, serve_begins hstale⟩
  · push Not at hstale
    obtain ⟨b, hb, hruns⟩ := hstale
    rcases lt_or_ge b.count w.1.maxRequests with hroom | hfull
    · exact .inr ⟨b, hb, hruns, .inl ⟨hroom, serve_counts hb hruns hroom⟩⟩
    · exact .inr ⟨b, hb, hruns, .inr ⟨hfull, serve_refuses hb hruns hfull⟩⟩

end Step

/-! One address. -/

/-- What one window lets past. -/
def burst (maxRequests : ℤ) : ℤ := max 1 maxRequests

/-- What a window that began before an interval may still let past in it. -/
def carried (maxRequests window : ℤ) : ℤ := if window = 0 then 0 else burst maxRequests - 1

/-- A counter next to the number `n` that was let past from `t` to `t'`. The window began
before the interval, in it or after it. -/
structure Filled (maxRequests window t t' : ℤ) (b : RateBucket) (n : ℤ) : Prop where
  count_pos : 1 ≤ b.count
  count_le : b.count ≤ burst maxRequests
  before : b.resetAt - window < t → n ≤ b.count - 1 ∧ n ≤ carried maxRequests window
  within : t ≤ b.resetAt - window → b.resetAt - window ≤ t' →
    n ≤ carried maxRequests window + b.count
  after : t' < b.resetAt - window → n ≤ carried maxRequests window + burst maxRequests

section Counters
variable {maxRequests window t t' now n : ℤ} {b : RateBucket}

theorem carried_nonneg (maxRequests window : ℤ) : 0 ≤ carried maxRequests window := by
  unfold carried burst
  split_ifs <;> omega

theorem one_le_burst (maxRequests : ℤ) : 1 ≤ burst maxRequests := le_max_left _ _

theorem carried_add_burst_nonneg (maxRequests window : ℤ) :
    0 ≤ carried maxRequests window + burst maxRequests := by
  have hcarried := carried_nonneg maxRequests window
  have hburst := one_le_burst maxRequests
  omega

theorem Filled.le (h : Filled maxRequests window t t' b n) :
    n ≤ carried maxRequests window + burst maxRequests := by
  have hle := h.count_le
  have hpos := h.count_pos
  rcases lt_or_ge (b.resetAt - window) t with hbefore | hfrom
  · have := h.before hbefore
    omega
  · rcases lt_or_ge t' (b.resetAt - window) with hafter | hwithin
    · exact h.after hafter
    · have := h.within hfrom hwithin
      omega

/-- Whether a time lies in the interval, as a number. -/
def inside (t t' now : ℤ) : ℤ := if t ≤ now ∧ now ≤ t' then 1 else 0

theorem inside_of_lt (h : now < t) : inside t t' now = 0 := if_neg (by omega)

theorem inside_of_gt (h : t' < now) : inside t t' now = 0 := if_neg (by omega)

theorem inside_le (t t' now : ℤ) : inside t t' now ≤ 1 := by
  unfold inside
  split_ifs <;> decide

/-- A window begins. Two cannot begin in one interval unless nothing was let past by an
earlier one. -/
theorem filled_begin (hstart : now < t → n = 0) (hfrom : t ≤ now → now ≤ t' →
    n ≤ carried maxRequests window) (hbound : n ≤ carried maxRequests window + burst maxRequests) :
    Filled maxRequests window t t' ⟨1, now + window⟩ (n + inside t t' now) := by
  have hcarried := carried_nonneg maxRequests window
  have hone := inside_le t t' now
  have hburst := one_le_burst maxRequests
  refine ⟨le_refl _, hburst, ?_, ?_, ?_⟩
  · intro hbefore
    have hlt : now < t := by simpa using hbefore
    have hzero := hstart hlt
    rw [inside_of_lt hlt]
    simp only
    omega
  · intro hge hle
    have := hfrom (by simpa using hge) (by simpa using hle)
    simp only
    omega
  · intro hafter
    rw [inside_of_gt (by simpa using hafter)]
    omega

/-- The counter goes up. -/
theorem Filled.count (h : Filled maxRequests window t t' b n) (hbegun : b.resetAt - window ≤ now)
    (hruns : now ≤ b.resetAt) (hroom : b.count < maxRequests) :
    Filled maxRequests window t t' ⟨b.count + 1, b.resetAt⟩ (n + inside t t' now) := by
  have hpos := h.count_pos
  have hone := inside_le t t' now
  have hburst : maxRequests ≤ burst maxRequests := le_max_right _ _
  refine ⟨?_, ?_, ?_, ?_, ?_⟩
  · show 1 ≤ b.count + 1
    omega
  · show b.count + 1 ≤ _
    omega
  · intro hbefore
    obtain ⟨hn, hcarried⟩ := h.before hbefore
    refine ⟨?_, ?_⟩
    · show n + inside t t' now ≤ b.count + 1 - 1
      omega
    · -- a window of length zero is over when the interval begins
      by_cases hzero : window = 0
      · rw [inside_of_lt (by simp only at hbefore; omega)]
        omega
      · rw [carried, if_neg hzero]
        omega
  · intro hge hle
    have := h.within hge hle
    show _ ≤ _ + (b.count + 1)
    omega
  · intro hafter
    rw [inside_of_gt (lt_of_lt_of_le hafter hbegun)]
    have := h.after hafter
    omega

end Counters

/-- The requests of an address among those noted. -/
def passedBy (log : List Request) (a : RemoteAddr) (t t' : ℤ) : ℕ :=
  log.countP fun q => decide (q.remoteAddr = a ∧ t ≤ q.time ∧ q.time ≤ t')

section Addresses
variable {maxRequests window t t' : ℤ} {a : RemoteAddr} {log reqs : List Request} {w : Server}
  {q : Request}

theorem passedBy_snoc (log : List Request) (q : Request) (t t' : ℤ) :
    (passedBy (log ++ [q]) q.remoteAddr t t' : ℤ) =
      passedBy log q.remoteAddr t t' + inside t t' q.time := by
  rw [passedBy, List.countP_append, inside]
  by_cases h : t ≤ q.time ∧ q.time ≤ t' <;> simp [passedBy, h]

theorem passedBy_snoc_ne (h : q.remoteAddr ≠ a) :
    passedBy (log ++ [q]) a t t' = passedBy log a t t' := by
  rw [passedBy, List.countP_append]
  simp [passedBy, h]

/-- Nothing lies in an interval that has not begun. -/
theorem passedBy_of_lt (h : ∀ p ∈ log, p.time < t) : passedBy log a t t' = 0 := by
  apply List.countP_eq_zero.mpr
  intro p hp
  have := h p hp
  simp only [decide_eq_true_eq]
  omega

/-- A server after the requests `reqs`, seen from one address and one interval. -/
structure Tracked (maxRequests window t t' : ℤ) (a : RemoteAddr) (reqs : List Request)
    (w : Server) : Prop where
  max_eq : w.1.maxRequests = maxRequests
  window_eq : w.1.window = window
  noted : ∀ q ∈ w.2, q ∈ reqs
  unknown : w.1.clients.get a.text = none → passedBy w.2 a t t' = 0
  begun : ∀ b, w.1.clients.get a.text = some b → ∃ p ∈ reqs, b.resetAt - window = p.time
  filled : ∀ b, w.1.clients.get a.text = some b →
    Filled maxRequests window t t' b (passedBy w.2 a t t')

theorem tracked_nil (maxRequests window t t' : ℤ) (a : RemoteAddr) :
    Tracked maxRequests window t t' a [] (newShardRateLimiter maxRequests window, []) where
  max_eq := rfl
  window_eq := rfl
  noted := fun _ h => h
  unknown := fun _ => rfl
  begun := fun b h => by cases h
  filled := fun b h => by cases h

theorem Tracked.le (h : Tracked maxRequests window t t' a reqs w) :
    (passedBy w.2 a t t' : ℤ) ≤ carried maxRequests window + burst maxRequests := by
  cases hb : w.1.clients.get a.text with
  | none =>
      rw [h.unknown hb]
      exact carried_add_burst_nonneg maxRequests window
  | some b => exact (h.filled b hb).le

/-- The address writes its bucket and is noted. -/
theorem Tracked.write (h : Tracked maxRequests window t t' q.remoteAddr reqs w) {b : RateBucket}
    (hbegun : ∃ p ∈ reqs ++ [q], b.resetAt - window = p.time)
    (hfilled : Filled maxRequests window t t' b
      (passedBy w.2 q.remoteAddr t t' + inside t t' q.time)) :
    Tracked maxRequests window t t' q.remoteAddr (reqs ++ [q])
      (w.1.setBucket q.remoteAddr.text b, w.2 ++ [q]) := by
  have hget : (w.1.setBucket q.remoteAddr.text b).clients.get q.remoteAddr.text = some b :=
    Store.get_set_self ..
  refine ⟨h.max_eq, h.window_eq, ?_, ?_, ?_, ?_⟩
  · intro p hp
    rcases List.mem_append.mp hp with hp | hp
    · exact List.mem_append_left _ (h.noted p hp)
    · exact List.mem_append_right _ hp
  · intro hnone
    rw [hget] at hnone
    cases hnone
  · intro b' hb'
    obtain rfl := Option.some.inj (hget.symm.trans hb')
    exact hbegun
  · intro b' hb'
    obtain rfl := Option.some.inj (hget.symm.trans hb')
    rw [passedBy_snoc]
    exact hfilled

/-- A request that leaves the bucket of the address as it was, and its count. -/
theorem Tracked.keep (h : Tracked maxRequests window t t' a reqs w) {w' : Server}
    (hmax : w'.1.maxRequests = w.1.maxRequests) (hwindow : w'.1.window = w.1.window)
    (hget : w'.1.clients.get a.text = w.1.clients.get a.text)
    (hnoted : ∀ p ∈ w'.2, p ∈ w.2 ∨ p = q)
    (hcount : passedBy w'.2 a t t' = passedBy w.2 a t t') :
    Tracked maxRequests window t t' a (reqs ++ [q]) w' := by
  refine ⟨hmax.trans h.max_eq, hwindow.trans h.window_eq, ?_, ?_, ?_, ?_⟩
  · intro p hp
    rcases hnoted p hp with hp | rfl
    · exact List.mem_append_left _ (h.noted p hp)
    · simp
  · rw [hget, hcount]
    exact h.unknown
  · intro b hb
    obtain ⟨p, hp, hstart⟩ := h.begun b (hget ▸ hb)
    exact ⟨p, List.mem_append_left _ hp, hstart⟩
  · intro b hb
    rw [hcount]
    exact h.filled b (hget ▸ hb)

/-- A request from another address. -/
theorem Tracked.other (h : Tracked maxRequests window t t' a reqs w) (hne : q.remoteAddr ≠ a) :
    Tracked maxRequests window t t' a (reqs ++ [q]) (serve w q) := by
  have hkey : a.text ≠ q.remoteAddr.text := fun heq => hne (RemoteAddr.text_inj heq).symm
  have hwrite : ∀ b, Tracked maxRequests window t t' a (reqs ++ [q])
      (w.1.setBucket q.remoteAddr.text b, w.2 ++ [q]) := by
    intro b
    apply h.keep
    · rfl
    · rfl
    · exact Store.get_set_ne _ _ hkey
    · intro p hp
      simpa using hp
    · exact passedBy_snoc_ne hne
  rcases serve_cases w q with ⟨-, heq⟩ | ⟨b, -, -, ⟨-, heq⟩ | ⟨-, heq⟩⟩
  · rw [heq]
    exact hwrite _
  · rw [heq]
    exact hwrite _
  · rw [heq]
    exact h.keep rfl rfl rfl (fun p hp => .inl hp) rfl

/-- A request from the address itself, not before any other. -/
theorem Tracked.own (hlength : t' - t ≤ window)
    (h : Tracked maxRequests window t t' q.remoteAddr reqs w)
    (hlast : ∀ p ∈ reqs, p.time ≤ q.time) :
    Tracked maxRequests window t t' q.remoteAddr (reqs ++ [q]) (serve w q) := by
  rcases serve_cases w q with ⟨hstale, heq⟩ | ⟨b, hb, hruns, ⟨hroom, heq⟩ | ⟨-, heq⟩⟩
  · rw [heq, h.window_eq]
    apply h.write
    · exact ⟨q, by simp, by simp⟩
    · apply filled_begin
      · intro hlt
        rw [passedBy_of_lt fun p hp => lt_of_le_of_lt (hlast p (h.noted p hp)) hlt]
        rfl
      · intro hge hle
        cases hb : w.1.clients.get q.remoteAddr.text with
        | none =>
            rw [h.unknown hb]
            exact carried_nonneg _ _
        | some b =>
            have hover := hstale b hb
            exact ((h.filled b hb).before (by omega)).2
      · exact h.le
  · rw [heq]
    obtain ⟨p, hp, hstart⟩ := h.begun b hb
    apply h.write
    · exact ⟨p, List.mem_append_left _ hp, hstart⟩
    · apply (h.filled b hb).count _ hruns (h.max_eq ▸ hroom)
      rw [hstart]
      exact hlast p hp
  · rw [heq]
    exact h.keep rfl rfl rfl (fun p hp => .inl hp) rfl

theorem run_tracked (maxRequests : ℤ) (hlength : t' - t ≤ window) (a : RemoteAddr)
    (reqs : List Request)
    (hsorted : reqs.Pairwise fun p q => p.time ≤ q.time) :
    Tracked maxRequests window t t' a reqs
      (run serve (newShardRateLimiter maxRequests window, []) reqs) := by
  induction reqs using List.reverseRecOn with
  | nil => exact tracked_nil maxRequests window t t' a
  | append_singleton reqs q ih =>
      obtain ⟨hreqs, -, hlast⟩ := List.pairwise_append.mp hsorted
      rw [run_snoc]
      by_cases hne : q.remoteAddr = a
      · subst hne
        exact (ih hreqs).own hlength fun p hp => hlast p hp q (by simp)
      · exact (ih hreqs).other hne

/-- What is let past from one address in an interval no longer than the window: the rest
of one window and the whole of the next. -/
theorem passedBy_le (hlength : t' - t ≤ window) (a : RemoteAddr)
    (hsorted : reqs.Pairwise fun p q => p.time ≤ q.time) :
    (passedBy (passed maxRequests window reqs) a t t' : ℤ) ≤
      carried maxRequests window + burst maxRequests :=
  (run_tracked maxRequests hlength a reqs hsorted).le

theorem passed_mem (hsorted : reqs.Pairwise fun p q => p.time ≤ q.time)
    (hq : q ∈ passed maxRequests window reqs) : q ∈ reqs := by
  have hlength : window - 0 ≤ window := (sub_zero window).le
  exact (run_tracked maxRequests hlength q.remoteAddr reqs hsorted).noted q hq

end Addresses

/-! Requests that are all let past. -/

section Bursts
variable (r : ShardRateLimiter) (log : List Request) (q : Request)

theorem setBucket_setBucket (key : String) (b c : RateBucket) :
    (r.setBucket key b).setBucket key c = r.setBucket key c := by
  simp only [ShardRateLimiter.setBucket, Store.set_set]

/-- A running window with room for `k` more. -/
theorem run_counts (c : ℤ) {resetAt : ℤ} (hruns : q.time ≤ resetAt) (k : ℕ)
    (hroom : c + k ≤ r.maxRequests) :
    run serve (r.setBucket q.remoteAddr.text ⟨c, resetAt⟩, log) (List.replicate k q) =
      (r.setBucket q.remoteAddr.text ⟨c + k, resetAt⟩, log ++ List.replicate k q) := by
  induction k with
  | zero => simp
  | succ k ih =>
      have hless : c + (k : ℤ) < r.maxRequests := by
        push_cast at hroom
        omega
      have hget : (r.setBucket q.remoteAddr.text ⟨c + k, resetAt⟩).clients.get q.remoteAddr.text =
          some ⟨c + k, resetAt⟩ := Store.get_set_self ..
      rw [List.replicate_succ', run_snoc, ih hless.le, serve_counts hget hruns hless,
        setBucket_setBucket, List.append_assoc]
      push_cast
      rw [add_assoc]

/-- A window that begins, and is filled. -/
theorem run_begins (k : ℕ)
    (hstale : ∀ b, r.clients.get q.remoteAddr.text = some b → b.resetAt < q.time)
    (hwindow : 0 ≤ r.window) (hroom : ((k + 1 : ℕ) : ℤ) ≤ r.maxRequests) :
    run serve (r, log) (List.replicate (k + 1) q) =
      (r.setBucket q.remoteAddr.text ⟨1 + k, q.time + r.window⟩,
        log ++ List.replicate (k + 1) q) := by
  have hruns : q.time ≤ q.time + r.window := by omega
  have hmore : 1 + (k : ℤ) ≤ r.maxRequests := by
    push_cast at hroom
    omega
  rw [List.replicate_succ, run_cons, serve_begins hstale, run_counts r _ q 1 hruns k hmore,
    List.append_assoc, List.singleton_append]

end Bursts

section Broken
variable {P : Set RemoteAddr} {maxRequests window : ℤ}

/-- The first request of a client is let past whatever the limit is. -/
theorem Limits.one_le (h : Limits P maxRequests window) (hwindow : 0 ≤ window) {a : RemoteAddr}
    (ha : a ∈ P) : 1 ≤ maxRequests := by
  have hpassed : passed maxRequests window [⟨0, a⟩] = [⟨0, a⟩] := by
    have hserve : serve (newShardRateLimiter maxRequests window, []) ⟨0, a⟩ = (_, [] ++ [⟨0, a⟩]) :=
      serve_begins fun b hb => by cases hb
    rw [passed, run_cons, hserve]
    rfl
  have hone := h [⟨0, a⟩] (by simpa using ha) (List.pairwise_singleton _ _) a.ip 0 0 (le_refl 0)
    (by omega)
  rw [passedFrom, hpassed] at hone
  simpa using hone

theorem exists_succ (h : 1 ≤ maxRequests) : ∃ k : ℕ, maxRequests = (k + 1 : ℕ) :=
  ⟨(maxRequests - 1).toNat, by omega⟩

/-- Two ports of one IP: the second has a counter of its own. -/
theorem passed_two_ports {a b : RemoteAddr} (hne : a ≠ b) (hwindow : 0 ≤ window) (k : ℕ) :
    passed (k + 1 : ℕ) window (List.replicate (k + 1) ⟨0, a⟩ ++ [⟨0, b⟩]) =
      List.replicate (k + 1) ⟨0, a⟩ ++ [⟨0, b⟩] := by
  have hkey : b.text ≠ a.text := fun heq => hne (RemoteAddr.text_inj heq).symm
  have hfirst := run_begins (newShardRateLimiter (k + 1 : ℕ) window) [] ⟨0, a⟩ k
    (fun c hc => by cases hc) hwindow (le_refl _)
  rw [passed, run_append, hfirst, run_cons, serve_begins, run_nil, List.nil_append]
  intro c hc
  have hnone : (newShardRateLimiter (k + 1 : ℕ) window).clients.get b.text = none := rfl
  have hget := (Store.get_set_ne _ _ hkey).symm.trans hc
  rw [hnone] at hget
  cases hget

theorem Limits.one_address (h : Limits P maxRequests window) (hwindow : 0 ≤ window)
    {a b : RemoteAddr} (ha : a ∈ P) (hb : b ∈ P) (hip : a.ip = b.ip) : a = b := by
  by_contra hne
  obtain ⟨k, rfl⟩ := exists_succ (h.one_le hwindow ha)
  have hmem : ∀ q ∈ List.replicate (k + 1) (⟨0, a⟩ : Request) ++ [⟨0, b⟩],
      q = ⟨0, a⟩ ∨ q = ⟨0, b⟩ := by
    intro q hq
    rcases List.mem_append.mp hq with hq | hq
    · exact .inl (List.eq_of_mem_replicate hq)
    · exact .inr (List.mem_singleton.mp hq)
  have htimes : ∀ q ∈ List.replicate (k + 1) (⟨0, a⟩ : Request) ++ [⟨0, b⟩], q.time = 0 := by
    intro q hq
    rcases hmem q hq with rfl | rfl <;> rfl
  have hcount := h (List.replicate (k + 1) ⟨0, a⟩ ++ [⟨0, b⟩])
    (fun q hq => by rcases hmem q hq with rfl | rfl <;> assumption)
    (List.pairwise_of_forall_mem_list fun p hp q hq => by rw [htimes p hp, htimes q hq])
    a.ip 0 0 (le_refl 0) (by omega)
  have hall : passedFrom (k + 1 : ℕ) window (List.replicate (k + 1) ⟨0, a⟩ ++ [⟨0, b⟩]) a.ip 0 0 =
      k + 2 := by
    rw [passedFrom, passed_two_ports hne hwindow k, List.countP_eq_length.mpr]
    · simp
    · intro q hq
      rcases hmem q hq with rfl | rfl <;> simp [hip]
  rw [hall] at hcount
  push_cast at hcount
  omega

/-- What fills a window at its end, and the next one nanosecond later. -/
def atBoundary (window : ℤ) (a : RemoteAddr) (k : ℕ) : List Request :=
  List.replicate k ⟨window, a⟩ ++ List.replicate (k + 1) ⟨window + 1, a⟩

theorem mem_atBoundary {a : RemoteAddr} {k : ℕ} {q : Request} (h : q ∈ atBoundary window a k) :
    q.remoteAddr = a ∧ window ≤ q.time ∧ q.time ≤ window + 1 := by
  rcases List.mem_append.mp h with h | h
  · rw [List.eq_of_mem_replicate h]
    exact ⟨rfl, le_refl _, (lt_add_one window).le⟩
  · rw [List.eq_of_mem_replicate h]
    exact ⟨rfl, (lt_add_one window).le, le_refl _⟩

theorem atBoundary_sorted (window : ℤ) (a : RemoteAddr) (k : ℕ) :
    (atBoundary window a k).Pairwise fun p q => p.time ≤ q.time := by
  apply List.pairwise_append.mpr
  refine ⟨List.pairwise_replicate.mpr (.inr (le_refl _)),
    List.pairwise_replicate.mpr (.inr (le_refl _)), ?_⟩
  intro p hp q hq
  rw [List.eq_of_mem_replicate hp, List.eq_of_mem_replicate hq]
  exact (lt_add_one window).le

theorem countP_atBoundary (window : ℤ) (a : RemoteAddr) (k : ℕ) :
    (atBoundary window a k).countP (fun q => decide (q.remoteAddr.ip = a.ip ∧ window ≤ q.time ∧
      q.time ≤ window + 1)) = 2 * k + 1 := by
  rw [List.countP_eq_length.mpr]
  · simp only [atBoundary, List.length_append, List.length_replicate]
    omega
  · intro q hq
    obtain ⟨haddr, hge, hle⟩ := mem_atBoundary hq
    simp [haddr, hge, hle]

/-- One request begins the first window; all that follow it are let past. -/
theorem passed_boundary (a : RemoteAddr) (hwindow : 0 ≤ window) (k : ℕ) :
    passed (k + 1 : ℕ) window (⟨0, a⟩ :: atBoundary window a k) =
      ⟨0, a⟩ :: atBoundary window a k := by
  let r := newShardRateLimiter (k + 1 : ℕ) window
  have hroom : 1 + (k : ℤ) ≤ r.maxRequests := by
    show 1 + (k : ℤ) ≤ (k + 1 : ℕ)
    omega
  have hfirst : serve (r, []) ⟨0, a⟩ = (r.setBucket a.text ⟨1, window⟩, [⟨0, a⟩]) := by
    rw [serve_begins fun c hc => by cases hc]
    simp [r, newShardRateLimiter]
  have hfill := run_counts r [⟨0, a⟩] ⟨window, a⟩ 1 (le_refl window) k hroom
  have hstale : ∀ c, (r.setBucket a.text ⟨1 + k, window⟩).clients.get a.text = some c →
      c.resetAt < window + 1 := by
    intro c hc
    obtain rfl := Option.some.inj ((Store.get_set_self ..).symm.trans hc)
    exact lt_add_one window
  have hnext := run_begins (r.setBucket a.text ⟨1 + k, window⟩)
    ([⟨0, a⟩] ++ List.replicate k ⟨window, a⟩) ⟨window + 1, a⟩ k hstale hwindow (le_refl _)
  rw [passed, run_cons, hfirst, atBoundary, run_append, hfill, hnext, List.append_assoc]
  rfl

theorem Limits.short_or_single (h : Limits P maxRequests window) (hwindow : 0 ≤ window)
    {a : RemoteAddr} (ha : a ∈ P) : maxRequests = 1 ∨ window = 0 := by
  by_contra hneither
  push Not at hneither
  obtain ⟨hmax, hpos⟩ := hneither
  obtain ⟨k, rfl⟩ := exists_succ (h.one_le hwindow ha)
  have hfrom : ∀ q ∈ ⟨0, a⟩ :: atBoundary window a k, q.remoteAddr ∈ P := by
    intro q hq
    rcases List.mem_cons.mp hq with rfl | hq
    · exact ha
    · rw [(mem_atBoundary hq).1]
      exact ha
  have hsorted : (⟨0, a⟩ :: atBoundary window a k).Pairwise fun p q => p.time ≤ q.time :=
    List.pairwise_cons.mpr ⟨fun q hq => hwindow.trans (mem_atBoundary hq).2.1,
      atBoundary_sorted window a k⟩
  have hcount := h _ hfrom hsorted a.ip window (window + 1) (by omega) (by omega)
  have hmost : 2 * k + 1 ≤ passedFrom (k + 1 : ℕ) window (⟨0, a⟩ :: atBoundary window a k) a.ip
      window (window + 1) := by
    rw [passedFrom, passed_boundary a hwindow k, List.countP_cons, countP_atBoundary]
    exact Nat.le_add_right _ _
  omega

end Broken

section Kept
variable {P : Set RemoteAddr} {window : ℤ}

/-- With one address for an IP, its requests are those of the address. -/
theorem passedFrom_le (maxRequests : ℤ) (hone : ∀ a ∈ P, ∀ b ∈ P, a.ip = b.ip → a = b)
    {reqs : List Request}
    (hfrom : ∀ q ∈ reqs, q.remoteAddr ∈ P) (hsorted : reqs.Pairwise fun p q => p.time ≤ q.time)
    (ip : String) {t t' : ℤ} (hlength : t' - t ≤ window) :
    (passedFrom maxRequests window reqs ip t t' : ℤ) ≤
      carried maxRequests window + burst maxRequests := by
  by_cases hip : ∃ a ∈ P, a.ip = ip
  · obtain ⟨a, ha, rfl⟩ := hip
    have hsame : passedFrom maxRequests window reqs a.ip t t' =
        passedBy (passed maxRequests window reqs) a t t' := by
      apply List.countP_congr
      intro q hq
      have hq := hfrom q (passed_mem hsorted hq)
      have hiff : q.remoteAddr.ip = a.ip ↔ q.remoteAddr = a :=
        ⟨hone _ hq a ha, fun heq => by rw [heq]⟩
      simp only [hiff]
    rw [hsame]
    exact passedBy_le hlength a hsorted
  · have hzero : passedFrom maxRequests window reqs ip t t' = 0 := by
      apply List.countP_eq_zero.mpr
      intro q hq hcounted
      exact hip ⟨_, hfrom q (passed_mem hsorted hq), (of_decide_eq_true hcounted).1⟩
    rw [hzero]
    exact carried_add_burst_nonneg maxRequests window

/-- The limiter limits each IP exactly if no interval is short enough, if nobody asks, or
if no IP has two ports and a window lets one request past or lasts an instant. -/
theorem limits_each_ip_iff (P : Set RemoteAddr) (maxRequests window : ℤ) :
    Limits P maxRequests window ↔ window < 0 ∨ (P = ∅ ∧ 0 ≤ maxRequests) ∨
      ((∀ a ∈ P, ∀ b ∈ P, a.ip = b.ip → a = b) ∧ 1 ≤ maxRequests ∧
        (maxRequests = 1 ∨ window = 0)) := by
  constructor
  · intro h
    rcases lt_or_ge window 0 with hneg | hwindow
    · exact .inl hneg
    · right
      rcases P.eq_empty_or_nonempty with hempty | ⟨a, ha⟩
      · have hnone := h [] (by simp) List.Pairwise.nil "" 0 0 (le_refl 0) (by omega)
        exact .inl ⟨hempty, hnone⟩
      · exact .inr ⟨fun a ha b hb => h.one_address hwindow ha hb, h.one_le hwindow ha,
          h.short_or_single hwindow ha⟩
  · rintro (hneg | ⟨rfl, hmax⟩ | ⟨hone, hmax, hcases⟩) reqs hfrom hsorted ip t t' hle hlength
    · omega
    · have hnil : reqs = [] := List.eq_nil_iff_forall_not_mem.mpr fun q hq => hfrom q hq
      rw [hnil]
      exact hmax
    · have hbound := passedFrom_le maxRequests hone hfrom hsorted ip hlength
      have hsum : carried maxRequests window + burst maxRequests = maxRequests := by
        rw [carried, burst, max_eq_right hmax]
        split_ifs <;> omega
      rwa [hsum] at hbound

end Kept

/-- The limiter that the server has: sixty requests in a minute. Two ports of one IP get
more past it, and so does a single one. -/
theorem sixty_a_minute_exceeded :
    ¬ Limits Set.univ 60 (60 * 10 ^ 9) ∧
      ¬ Limits {⟨"10.0.0.1", "4000", by decide⟩} 60 (60 * 10 ^ 9) := by
  constructor
  · intro h
    have hsame := h.one_address (by decide) (Set.mem_univ ⟨"10.0.0.1", "4000", by decide⟩)
      (Set.mem_univ ⟨"10.0.0.1", "4001", by decide⟩) rfl
    exact absurd hsame (by decide)
  · intro h
    have hshort := h.short_or_single (by decide) (Set.mem_singleton _)
    omega

end Zytherion.RateLimits
