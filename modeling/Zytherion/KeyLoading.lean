import Zytherion.NodeKeys

/-!
# Concurrent key loading

The query plugin loads its pair as `ensureNodeKeys` does, but holds no lock. Each
access to one of the two cache variables, to a file, and each generation is a step
of its own, and the steps of any number of calls may interleave.

A call that starts once another has returned a pair reads that pair, however the
steps fall. Before that, a second call can find the cache half filled and return a
client key without its server key, or generate another pair.
-/
namespace Zytherion.KeyLoading

open GoCall Application NodeKeys

/-- What the calls of a process share, with the pairs they have generated. -/
structure Shared where
  cachedClientKey : List UInt8
  cachedServerKey : List UInt8
  disk : Disk
  made : List TFHEKeyPair

def Shared.node (s : Shared) : Node := ⟨s.disk, ⟨s.cachedClientKey, s.cachedServerKey⟩⟩

/-- Where a call stands, with the values it has in hand. -/
inductive Pc where
  | test
  | returnClient
  | returnServer (ck : List UInt8)
  | readClient
  | readServer (ck : Option (List UInt8))
  | generate
  | writeClient (kp : TFHEKeyPair)
  | writeServer (kp : TFHEKeyPair)
  | cacheClient (kp : TFHEKeyPair)
  | cacheServer (kp : TFHEKeyPair)
  | done (result : Except Err TFHEKeyPair)

def Pc.isDone : Pc → Bool
  | done _ => true
  | _ => false

/-- The pair a call has returned. -/
def Pc.pair : Pc → Option TFHEKeyPair
  | done (.ok kp) => some kp
  | _ => none

/-- One step of a call of `ensureKeys`. -/
def ensureKeysStep (a : Attempt) : Shared × Pc → Shared × Pc
  | (s, .test) => (s, if 0 < s.cachedClientKey.length then .returnClient else .readClient)
  -- the test and the return read the variable anew
  | (s, .returnClient) => (s, .returnServer s.cachedClientKey)
  | (s, .returnServer ck) => (s, .done (.ok ⟨ck, s.cachedServerKey⟩))
  | (s, .readClient) => (s, .readServer (Attempt.readFile a.readsClient s.disk.client))
  | (s, .readServer ck) =>
      (s, match foundKeys ck (Attempt.readFile a.readsServer s.disk.server) with
        | some kp => .cacheClient kp
        | none => .generate)
  | (s, .generate) =>
      match a.generated with
      | .ok kp => ({ s with made := s.made ++ [kp] }, .writeClient kp)
      | .error e => (s, .done (.error (.wrap "tfhe: key generation failed" e)))
  | (s, .writeClient kp) => ({ s with disk := a.writeClient kp s.disk }, .writeServer kp)
  | (s, .writeServer kp) => ({ s with disk := a.writeServer kp s.disk }, .cacheClient kp)
  | (s, .cacheClient kp) => ({ s with cachedClientKey := kp.clientKey }, .cacheServer kp)
  | (s, .cacheServer kp) => ({ s with cachedServerKey := kp.serverKey }, .done (.ok kp))
  | (s, .done r) => (s, .done r)

/-- What a call that is done left and returned. -/
def outcome : Shared × Pc → Option (Outcome Node Err TFHEKeyPair)
  | (s, .done (.ok kp)) => some (.ok kp s.node)
  | (s, .done (.error e)) => some (.err e s.node)
  | _ => none

/-- A call that nobody interrupts does what `ensureNodeKeys` does. -/
theorem outcome_alone (a : Attempt) (s : Shared) :
    outcome ((ensureKeysStep a)^[8] (s, .test)) = some (ensureNodeKeys a s.node) := by
  by_cases hwarm : 0 < s.cachedClientKey.length
  · rw [ensure_cached hwarm]
    simp [ensureKeysStep, hwarm, outcome, Shared.node]
  · cases hloaded : a.loaded s.disk with
    | some kp =>
        rw [ensure_found hwarm hloaded]
        rw [Attempt.loaded] at hloaded
        simp [ensureKeysStep, hwarm, hloaded, outcome, Shared.node]
    | none =>
        have hread := hloaded
        rw [Attempt.loaded] at hread
        cases hgen : a.generated with
        | ok kp =>
            rw [ensure_generated hwarm hloaded hgen]
            simp [ensureKeysStep, hwarm, hread, hgen, outcome, Shared.node]
        | error e =>
            rw [ensure_failed hwarm hloaded hgen]
            simp [ensureKeysStep, hwarm, hread, hgen, outcome, Shared.node]

structure Thread where
  attempt : Attempt
  pc : Pc

structure System where
  shared : Shared
  threads : List Thread

inductive Action where
  | start (a : Attempt)
  | step (i : ℕ)

def Thread.after (th : Thread) (s : Shared) : Shared × Pc := ensureKeysStep th.attempt (s, th.pc)

def next (sys : System) : Action → System
  | .start a => { sys with threads := sys.threads ++ [⟨a, .test⟩] }
  | .step i =>
      match sys.threads[i]? with
      | none => sys
      | some th =>
          ⟨(th.after sys.shared).1, sys.threads.set i ⟨th.attempt, (th.after sys.shared).2⟩⟩

/-- A process before its first call. -/
def idle (disk : Disk) : System := ⟨⟨[], [], disk, []⟩, []⟩

/-- The pairs the calls have returned. -/
def System.returned (sys : System) : List TFHEKeyPair := sys.threads.filterMap (·.pc.pair)

/-- A pair without an empty key, generated in one go or there from the beginning. -/
def Matching (initial : Disk) (s : Shared) (kp : TFHEKeyPair) : Prop :=
  kp.clientKey ≠ [] ∧ kp.serverKey ≠ [] ∧ (kp ∈ s.made ∨ some kp = initial.pair)

def Coherent (initial : Disk) (sys : System) : Prop :=
  (∀ kp ∈ sys.returned, Matching initial sys.shared kp) ∧
    ∀ kp ∈ sys.returned, ∀ kp' ∈ sys.returned, kp = kp'

instance (initial : Disk) (s : Shared) (kp : TFHEKeyPair) : Decidable (Matching initial s kp) :=
  inferInstanceAs (Decidable (_ ∧ _ ∧ _))

instance (initial : Disk) (sys : System) : Decidable (Coherent initial sys) :=
  inferInstanceAs (Decidable (_ ∧ _))

/-- What may go wrong: a call starts beside another one before any has returned a
pair, or a generated key is empty. -/
inductive Hazard where
  | overlap
  | empty (file : KeyFile)
deriving DecidableEq

def System.crowded (sys : System) : Bool :=
  sys.threads.any (!·.pc.isDone) && sys.returned.isEmpty

def hazards (sys : System) : Action → List Hazard
  | .start a => (if sys.crowded then [.overlap] else []) ++ (emptyKeys a.generated).map .empty
  | .step _ => []

/-- No hazard is met but what is allowed. Files may fail to be read or written. -/
def Allowed (H : Hazard → Prop) (disk : Disk) (actions : List Action) : Prop :=
  Along next (fun sys act => ∀ h ∈ hazards sys act, H h) (idle disk) actions

section Breaking

/-- The second call tests the cache between the two writes of the first one. -/
def torn : List Action :=
  [.start (healthy firstPair), .start (healthy secondPair)] ++ List.replicate 7 (.step 0) ++
    List.replicate 3 (.step 1) ++ [.step 0]

/-- A schedule in which each hazard alone does its harm. -/
def breaking : Hazard → List Action
  | .overlap => torn
  | .empty file => .start (healthy (withoutKey firstPair file)) :: List.replicate 8 (.step 0)

theorem breaking_incoherent (h : Hazard) :
    Allowed (· = h) ⟨none, none⟩ (breaking h) ∧
      ¬Coherent ⟨none, none⟩ (run next (idle ⟨none, none⟩) (breaking h)) := by
  unfold Allowed
  cases h with
  | overlap => decide
  | empty file => cases file <;> decide

end Breaking

section Orderly

/-- Nothing has been written yet. -/
def Untouched (initial : Disk) (s : Shared) : Prop := s.cachedClientKey = [] ∧ s.disk = initial

/-- A call that has the process to itself before there is a pair. -/
def Loading (initial : Disk) (s : Shared) : Pc → Prop
  | .test | .readClient | .generate => Untouched initial s
  | .readServer ck => Untouched initial s ∧ (ck = none ∨ ck = initial.client)
  | .writeClient kp | .writeServer kp | .cacheClient kp =>
      s.cachedClientKey = [] ∧ Matching initial s kp
  | .cacheServer kp => s.cachedClientKey = kp.clientKey ∧ Matching initial s kp
  | _ => False

/-- The pair in the cache is a matching one. -/
structure Cached (initial : Disk) (s : Shared) (p : TFHEKeyPair) : Prop where
  matching : Matching initial s p
  client : s.cachedClientKey = p.clientKey
  server : s.cachedServerKey = p.serverKey

/-- A call that takes the pair from the cache, or is over. -/
def Following (p : TFHEKeyPair) : Pc → Prop
  | .test | .returnClient | .done (.error _) => True
  | .returnServer ck => ck = p.clientKey
  | .done (.ok kp) => kp = p
  | _ => False

def Failed (th : Thread) : Prop := ∃ e, th.pc = .done (.error e)

/-- The states without a hazard: failed calls only, one call that loads after them,
or a cached pair that everybody takes. -/
inductive Orderly (initial : Disk) : System → Prop
  | untouched {s : Shared} {failed : List Thread} (h : Untouched initial s)
      (hfailed : ∀ th ∈ failed, Failed th) : Orderly initial ⟨s, failed⟩
  | loading {s : Shared} {failed : List Thread} {th : Thread} (h : Loading initial s th.pc)
      (hkeyed : Keyed th.attempt) (hfailed : ∀ th ∈ failed, Failed th) :
      Orderly initial ⟨s, failed ++ [th]⟩
  | cached {s : Shared} {threads : List Thread} {p : TFHEKeyPair} (h : Cached initial s p)
      (hfollow : ∀ th ∈ threads, Following p th.pc) : Orderly initial ⟨s, threads⟩

variable {initial : Disk} {s : Shared} {a : Attempt} {th : Thread} {threads : List Thread}
  {sys : System} {p : TFHEKeyPair}

theorem Failed.pair (h : Failed th) : th.pc.pair = none := by
  obtain ⟨e, he⟩ := h
  rw [he]
  rfl

theorem Failed.after (h : Failed th) (s : Shared) : th.after s = (s, th.pc) := by
  obtain ⟨e, he⟩ := h
  rw [Thread.after, he]
  rfl

theorem Failed.following (h : Failed th) (p : TFHEKeyPair) : Following p th.pc := by
  obtain ⟨e, he⟩ := h
  rw [he]
  trivial

theorem Loading.pair {pc : Pc} (h : Loading initial s pc) : pc.pair = none := by
  cases pc with
  | done r => cases h
  | _ => rfl

theorem Loading.running {pc : Pc} (h : Loading initial s pc) : pc.isDone = false := by
  cases pc with
  | done r => cases h
  | _ => rfl

theorem Following.pair {pc : Pc} {kp : TFHEKeyPair} (h : Following p pc)
    (hpair : pc.pair = some kp) : kp = p := by
  cases pc with
  | done r =>
      cases r with
      | ok q => exact (Option.some.inj hpair).symm.trans h
      | error e => cases hpair
  | _ => cases hpair

theorem mem_returned {kp : TFHEKeyPair} :
    kp ∈ sys.returned ↔ ∃ th ∈ sys.threads, th.pc.pair = some kp := by
  simp [System.returned]

theorem returned_nil (h : ∀ th ∈ sys.threads, th.pc.pair = none) : sys.returned = [] :=
  List.filterMap_eq_nil_iff.mpr h

theorem coherent_of_none (h : sys.returned = []) : Coherent initial sys := by
  unfold Coherent
  rw [h]
  exact ⟨List.forall_mem_nil _, List.forall_mem_nil _⟩

/-- While a call is loading none has returned a pair. -/
theorem Loading.returned (h : Loading initial s th.pc) (hfailed : ∀ th ∈ threads, Failed th) :
    System.returned ⟨s, threads ++ [th]⟩ = [] := by
  refine returned_nil (List.forall_mem_append.mpr ⟨fun th' hth' => ?_, ?_⟩)
  · exact (hfailed th' hth').pair
  · exact List.forall_mem_singleton.mpr h.pair

theorem Orderly.coherent (h : Orderly initial sys) : Coherent initial sys := by
  cases h with
  | untouched _ hfailed =>
      exact coherent_of_none (returned_nil fun th hth => (hfailed th hth).pair)
  | loading h _ hfailed => exact coherent_of_none (h.returned hfailed)
  | @cached s threads p h hfollow =>
      have hall : ∀ kp ∈ System.returned ⟨s, threads⟩, kp = p := by
        intro kp hkp
        obtain ⟨th, hth, hpair⟩ := mem_returned.mp hkp
        exact (hfollow th hth).pair hpair
      refine ⟨fun kp hkp => ?_, fun kp hkp kp' hkp' => (hall kp hkp).trans (hall kp' hkp').symm⟩
      rw [hall kp hkp]
      exact h.matching

/-- What a step of a process does: nothing, or one call goes on. -/
theorem next_step (sys : System) (i : ℕ) :
    next sys (.step i) = sys ∨ ∃ before th later, sys.threads = before ++ th :: later ∧
      next sys (.step i) = ⟨(th.after sys.shared).1,
        before ++ ⟨th.attempt, (th.after sys.shared).2⟩ :: later⟩ := by
  cases hi : sys.threads[i]? with
  | none => exact .inl (by simp only [next, hi])
  | some th =>
      obtain ⟨hlt, hth⟩ := List.getElem?_eq_some_iff.mp hi
      obtain ⟨before, later, hsplit, -, hset⟩ :=
        @List.exists_of_set _ _ ⟨th.attempt, (th.after sys.shared).2⟩ _ hlt
      rw [hth] at hsplit
      exact .inr ⟨before, th, later, hsplit, by simp only [next, hi, hset]⟩

theorem Cached.following (h : Cached initial s p) (hfollow : Following p th.pc) :
    (th.after s).1 = s ∧ Following p (th.after s).2 := by
  obtain ⟨a, pc⟩ := th
  cases pc with
  | test =>
      have hwarm : 0 < s.cachedClientKey.length := by
        rw [h.client]
        exact List.length_pos_iff.mpr h.matching.1
      simp [Thread.after, ensureKeysStep, hwarm, Following]
  | returnClient => exact ⟨rfl, h.client⟩
  | returnServer ck => exact ⟨rfl, congrArg₂ TFHEKeyPair.mk hfollow h.server⟩
  | done r => exact ⟨rfl, hfollow⟩
  | _ => cases hfollow

/-- Where the step of a loading call leads: on, to an error that has touched nothing,
or to a pair that is cached. -/
inductive Loads (initial : Disk) : Shared × Pc → Prop
  | on {s : Shared} {pc : Pc} (h : Loading initial s pc) : Loads initial (s, pc)
  | failed {s : Shared} {e : Err} (h : Untouched initial s) : Loads initial (s, .done (.error e))
  | loaded {s : Shared} {kp : TFHEKeyPair} (h : Cached initial s kp) :
      Loads initial (s, .done (.ok kp))

theorem readFile_cases (reads : Bool) (contents : Option (List UInt8)) :
    Attempt.readFile reads contents = none ∨ Attempt.readFile reads contents = contents := by
  cases reads with
  | true => exact .inr rfl
  | false => exact .inl rfl

/-- Two files that were read as they were at the beginning. -/
theorem matching_of_found {ck sk : Option (List UInt8)} (hck : ck = none ∨ ck = initial.client)
    (hsk : sk = none ∨ sk = initial.server) (h : foundKeys ck sk = some p) :
    Matching initial s p := by
  have hread : ck = initial.client ∧ sk = initial.server := by
    constructor
    · refine hck.resolve_left ?_
      rintro rfl
      cases h
    · refine hsk.resolve_left ?_
      rintro rfl
      cases ck <;> cases h
  obtain ⟨hclient, hserver⟩ := foundKeys_nonempty h
  refine ⟨hclient, hserver, .inr ?_⟩
  rw [← h, hread.1, hread.2, Disk.pair]

theorem Loading.after (h : Loading initial s th.pc) (hkeyed : Keyed th.attempt) :
    Loads initial (th.after s) := by
  obtain ⟨a, pc⟩ := th
  cases pc with
  | test =>
      rw [Thread.after, ensureKeysStep, if_neg (by rw [h.1]; decide)]
      exact .on h
  | readClient =>
      refine .on ⟨h, ?_⟩
      rw [← h.2]
      exact readFile_cases ..
  | readServer ck =>
      have hsk := readFile_cases a.readsServer s.disk.server
      rw [h.1.2] at hsk
      rw [Thread.after, ensureKeysStep, h.1.2]
      cases hfound : foundKeys ck (Attempt.readFile a.readsServer initial.server) with
      | some kp => exact .on ⟨h.1.1, matching_of_found h.2 hsk hfound⟩
      | none => exact .on h.1
  | generate =>
      rw [Thread.after, ensureKeysStep]
      cases hgen : a.generated with
      | ok kp =>
          obtain ⟨hclient, hserver⟩ := hkeyed kp hgen
          exact .on ⟨h.1, hclient, hserver, .inl (by simp)⟩
      | error e => exact .failed h
  | writeClient kp => exact .on h
  | writeServer kp => exact .on h
  | cacheClient kp => exact .on ⟨rfl, h.2⟩
  | cacheServer kp => exact .loaded ⟨h.2, h.1, rfl⟩
  | _ => cases h

theorem Loads.orderly {c : Shared × Pc} (h : Loads initial c) (hkeyed : Keyed a)
    (hfailed : ∀ th ∈ threads, Failed th) : Orderly initial ⟨c.1, threads ++ [⟨a, c.2⟩]⟩ := by
  cases h with
  | on h => exact .loading h hkeyed hfailed
  | @failed s e h =>
      refine .untouched h (List.forall_mem_append.mpr ⟨hfailed, ?_⟩)
      exact List.forall_mem_singleton.mpr ⟨e, rfl⟩
  | @loaded s kp h =>
      refine .cached h (List.forall_mem_append.mpr ⟨fun th hth => ?_, ?_⟩)
      · exact (hfailed th hth).following kp
      · exact List.forall_mem_singleton.mpr rfl

theorem Orderly.step (h : Orderly initial sys) (i : ℕ) : Orderly initial (next sys (.step i)) := by
  rcases next_step sys i with hsame | ⟨before, th, later, hsplit, hnext⟩
  · rw [hsame]
    exact h
  · have hmem : th ∈ sys.threads := by simp [hsplit]
    rw [hnext]
    -- a failed call stays where it is
    have hstay : Failed th → Orderly initial ⟨(th.after sys.shared).1,
        before ++ ⟨th.attempt, (th.after sys.shared).2⟩ :: later⟩ := by
      intro hth
      rw [hth.after, ← hsplit]
      exact h
    cases h with
    | untouched h hfailed => exact hstay (hfailed th hmem)
    | @loading s failed cur h hkeyed hfailed =>
        rcases snoc_eq_iff.mp hsplit with ⟨rfl, rfl, rfl⟩ | ⟨rest, -, rfl⟩
        · exact (h.after hkeyed).orderly hkeyed hfailed
        · exact hstay (hfailed th (by simp))
    | @cached s threads p h hfollow =>
        obtain ⟨hshared, hth⟩ := h.following (hfollow th hmem)
        obtain rfl : threads = before ++ th :: later := hsplit
        obtain ⟨hbefore, hrest⟩ := List.forall_mem_append.mp hfollow
        obtain ⟨-, hlater⟩ := List.forall_mem_cons.mp hrest
        rw [hshared]
        refine .cached h (List.forall_mem_append.mpr ⟨hbefore, ?_⟩)
        exact List.forall_mem_cons.mpr ⟨hth, hlater⟩

theorem Orderly.start (h : Orderly initial sys) (hquiet : sys.crowded = false)
    (hkeyed : Keyed a) : Orderly initial (next sys (.start a)) := by
  cases h with
  | untouched h hfailed => exact .loading h hkeyed hfailed
  | loading h _ hfailed =>
      simp [System.crowded, h.returned hfailed, h.running] at hquiet
  | cached h hfollow =>
      refine .cached h (List.forall_mem_append.mpr ⟨hfollow, ?_⟩)
      exact List.forall_mem_singleton.mpr trivial

theorem orderly_run (h : Orderly initial sys) {actions : List Action}
    (hsafe : Along next (fun sys act => hazards sys act = []) sys actions) :
    Orderly initial (run next sys actions) := by
  induction actions generalizing sys with
  | nil => exact h
  | cons act actions ih =>
      obtain ⟨hact, hrest⟩ := hsafe
      refine ih ?_ hrest
      cases act with
      | step i => exact h.step i
      | start a =>
          obtain ⟨hquiet, hkeyed⟩ := List.append_eq_nil_iff.mp hact
          exact h.start (by simpa using hquiet) (keyed_of_emptyKeys (List.map_eq_nil_iff.mp hkeyed))

/-- Calls of one process agree on a matching pair under every interleaving exactly if
no generated key is empty and no call starts beside another one before a pair has
been returned. -/
theorem key_loading_coherent_iff (H : Hazard → Prop) :
    (∀ disk actions, Allowed H disk actions →
      Coherent disk (run next (idle disk) actions)) ↔ ∀ h, ¬H h := by
  constructor
  · intro hall h hh
    obtain ⟨hallowed, hbroken⟩ := breaking_incoherent h
    refine hbroken (hall _ _ (hallowed.imp fun sys act hact g hg => ?_))
    rw [hact g hg]
    exact hh
  · intro hnone disk actions hallowed
    have hidle : Orderly disk (idle disk) := .untouched ⟨rfl, rfl⟩ (by simp)
    refine (orderly_run hidle (hallowed.imp fun sys act hact => ?_)).coherent
    rw [List.eq_nil_iff_forall_not_mem]
    exact fun h hh => hnone h (hact h hh)

/-- The second call has looked at the files before the first one writes them. -/
def doubled : List Action :=
  [.start (healthy firstPair), .start (healthy secondPair)] ++ List.replicate 3 (.step 1) ++
    List.replicate 8 (.step 0) ++ List.replicate 5 (.step 1)

/-- As in `doubled`, with a third call between the last two writes of the second one. -/
def mixed : List Action :=
  [.start (healthy firstPair), .start (healthy secondPair), .start (healthy firstPair)] ++
    List.replicate 3 (.step 1) ++ List.replicate 8 (.step 0) ++ List.replicate 4 (.step 1) ++
    List.replicate 3 (.step 2) ++ [.step 1]

/-- A pair without a server key, two pairs, and a pair that was never generated. -/
theorem calls_disagree :
    (run next (idle ⟨none, none⟩) torn).returned = [firstPair, ⟨firstPair.clientKey, []⟩] ∧
    (run next (idle ⟨none, none⟩) doubled).returned = [firstPair, secondPair] ∧
    (run next (idle ⟨none, none⟩) mixed).returned =
      [firstPair, secondPair, ⟨secondPair.clientKey, firstPair.serverKey⟩] ∧
    ∀ actions ∈ [torn, doubled, mixed],
      ¬Coherent ⟨none, none⟩ (run next (idle ⟨none, none⟩) actions) := by
  decide

end Orderly

end Zytherion.KeyLoading
